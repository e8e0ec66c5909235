import UBoot.Lemmas.PxeLines
import UBoot.Lemmas.PxeText

/-!
# Written PXE menus are read back

The parse of a written menu gives the menu, just if what comes behind each `initrd=` that is looked at ends with a blank and no title comes
behind a label; after an `append` line with an `initrd=` there is to be no `initrd` line.
-/

namespace UBoot

namespace Pxe

variable {len : Option Nat} {mode : PxeMode} {cfg : PxeMenu} {name text x : List UInt8} {k : LineKind} {f : MenuLine}
variable {pre fields lines : List MenuLine} {items : List MenuItem}
variable {line : MenuLine}

/-! ## The lines of a label -/

theorem fieldArg_append : fieldArg k (pre ++ [f]) = (fieldArg k pre <|> if f.kind = k then some f.arg else none) := by
  unfold fieldArg
  rw [List.find?_append]
  cases hfind : pre.find? (·.kind = k) with
  | some g => rfl
  | none =>
    by_cases hk : f.kind = k
    · simp [hk]
    · simp [hk]

theorem fieldArg_eq_none (h : k ∉ pre.map MenuLine.kind) : fieldArg k pre = none := by
  unfold fieldArg
  rw [List.find?_eq_none.2, Option.map_none]
  intro g hg hk
  exact h (List.mem_map.2 ⟨g, hg, of_decide_eq_true hk⟩)

theorem fieldArg_other (h : f.kind ≠ k) : fieldArg k (pre ++ [f]) = fieldArg k pre := by
  rw [fieldArg_append, if_neg h]
  cases fieldArg k pre <;> rfl

theorem fieldArg_last (h : k ∉ pre.map MenuLine.kind) (hf : f.kind = k) : fieldArg k (pre ++ [f]) = some f.arg := by
  rw [fieldArg_append, fieldArg_eq_none h, if_pos hf]
  rfl

theorem beforeAppend_eq (h : .append ∉ pre.map MenuLine.kind) : beforeAppend (pre ++ fields) = pre ++ beforeAppend fields := by
  unfold beforeAppend
  rw [List.takeWhile_append_of_pos]
  intro g hg
  exact decide_eq_true fun hk => h (List.mem_map.2 ⟨g, hg, hk⟩)

theorem beforeAppend_behind (h : .append ∈ pre.map MenuLine.kind) : beforeAppend (pre ++ fields) = beforeAppend pre := by
  obtain ⟨g, hg, hk⟩ := List.mem_map.1 h
  unfold beforeAppend
  induction pre with
  | nil => cases hg
  | cons g' pre ih =>
    by_cases hg' : g'.kind = .append
    · rw [List.cons_append, List.takeWhile_cons_of_neg (by simp [hg']), List.takeWhile_cons_of_neg (by simp [hg'])]
    · have hmem : g ∈ pre := by
        rcases List.mem_cons.1 hg with rfl | hmem
        · exact absurd hk hg'
        · exact hmem
      rw [List.cons_append, List.takeWhile_cons_of_pos (by simp [hg']), List.takeWhile_cons_of_pos (by simp [hg']),
        ih (List.mem_map.2 ⟨g, hmem, hk⟩) hmem]

theorem beforeAppend_all (h : .append ∉ pre.map MenuLine.kind) : beforeAppend pre = pre := by
  have hall : beforeAppend (pre ++ []) = pre ++ beforeAppend [] := beforeAppend_eq h
  rw [List.append_nil] at hall
  rw [hall, beforeAppend, List.takeWhile_nil, List.append_nil]

theorem labelOf_initrd (h : .append ∉ pre.map MenuLine.kind) : (labelOf name pre).initrd = fieldArg .initrd pre := by
  change (fieldArg .initrd (beforeAppend pre) <|> (fieldArg .append pre).bind takenInitrd <|> fieldArg .initrd pre) = _
  rw [beforeAppend_all h, fieldArg_eq_none h]
  cases fieldArg .initrd pre <;> rfl

theorem labelOf_append (hnew : .append ∉ pre.map MenuLine.kind) (hf : f.kind = .append) :
    (labelOf name (pre ++ [f])).initrd = ((labelOf name pre).initrd <|> takenInitrd f.arg) := by
  have hbefore : beforeAppend (pre ++ [f]) = pre := by
    rw [beforeAppend_eq hnew, beforeAppend, List.takeWhile_cons_of_neg (by simp [hf]), List.append_nil]
  rw [labelOf_initrd hnew]
  change (fieldArg .initrd (beforeAppend (pre ++ [f])) <|> (fieldArg .append (pre ++ [f])).bind takenInitrd <|>
    fieldArg .initrd (pre ++ [f])) = _
  rw [hbefore, fieldArg_last hnew hf, fieldArg_other (by rw [hf]; nofun), Option.bind_some]
  cases fieldArg .initrd pre with
  | some i => rfl
  | none => cases takenInitrd f.arg <;> rfl

theorem beforeAppend_none (h : k ∉ pre.map MenuLine.kind) : fieldArg k (beforeAppend pre) = none := by
  refine fieldArg_eq_none fun hk => h ?_
  obtain ⟨g, hg, hkind⟩ := List.mem_map.1 hk
  exact List.mem_map.2 ⟨g, List.takeWhile_subset _ hg, hkind⟩

theorem labelOf_initrd_none (hnew : .initrd ∉ pre.map MenuLine.kind) (hlate : ∀ a, fieldArg .append pre = some a → takenInitrd a = none) :
    (labelOf name pre).initrd = none := by
  change (fieldArg .initrd (beforeAppend pre) <|> (fieldArg .append pre).bind takenInitrd <|> fieldArg .initrd pre) = none
  rw [beforeAppend_none hnew, fieldArg_eq_none hnew]
  cases happend : fieldArg .append pre with
  | none => rfl
  | some a =>
    rw [Option.bind_some, hlate a happend]
    rfl

theorem labelOf_initrd_last (hnew : .initrd ∉ pre.map MenuLine.kind) (hlate : ∀ a, fieldArg .append pre = some a → takenInitrd a = none)
    (hf : f.kind = .initrd) : (labelOf name (pre ++ [f])).initrd = some f.arg := by
  change (fieldArg .initrd (beforeAppend (pre ++ [f])) <|> (fieldArg .append (pre ++ [f])).bind takenInitrd <|>
    fieldArg .initrd (pre ++ [f])) = _
  rw [fieldArg_last hnew hf, fieldArg_other (by rw [hf]; nofun)]
  by_cases happend : .append ∈ pre.map MenuLine.kind
  · rw [beforeAppend_behind happend, beforeAppend_none hnew]
    cases harg : fieldArg .append pre with
    | none => rfl
    | some a =>
      rw [Option.bind_some, hlate a harg]
      rfl
  · have hall : .append ∉ (pre ++ [f]).map MenuLine.kind := by simpa [hf] using happend
    rw [beforeAppend_all hall, fieldArg_last hnew hf]
    rfl

theorem labelOf_initrd_other (happend : f.kind ≠ .append) (hinitrd : f.kind ≠ .initrd) :
    (labelOf name (pre ++ [f])).initrd = (labelOf name pre).initrd := by
  change (fieldArg .initrd (beforeAppend (pre ++ [f])) <|> (fieldArg .append (pre ++ [f])).bind takenInitrd <|>
    fieldArg .initrd (pre ++ [f])) = (fieldArg .initrd (beforeAppend pre) <|> _ <|> _)
  have hbefore : fieldArg .initrd (beforeAppend (pre ++ [f])) = fieldArg .initrd (beforeAppend pre) := by
    by_cases hmem : .append ∈ pre.map MenuLine.kind
    · rw [beforeAppend_behind hmem]
    · rw [beforeAppend_eq hmem, beforeAppend_all hmem, beforeAppend, List.takeWhile_cons_of_pos (by simp [happend]), List.takeWhile_nil,
        fieldArg_other hinitrd]
  rw [hbefore, fieldArg_other happend, fieldArg_other hinitrd]

/-- The menu, in a label whose lines so far are these. -/
def inLabelOf (cfg : PxeMenu) (name : List UInt8) (pre : List MenuLine) : PxeMenu :=
  { cfg with
    labels := cfg.labels ++ [labelOf name pre]
    defaultLabel := ((pre.filter (·.kind = .menuDefault)).map fun _ => name).getLast? <|> cfg.defaultLabel }

theorem inLabelOf_label : (inLabelOf cfg name pre).label = labelOf name pre := by
  unfold PxeMenu.label inLabelOf
  exact List.getLastD_concat

theorem inLabelOf_setLabel (h : f.kind ≠ .menuDefault) :
    (inLabelOf cfg name pre).setLabel (labelOf name (pre ++ [f])) = inLabelOf cfg name (pre ++ [f]) := by
  unfold PxeMenu.setLabel inLabelOf
  rw [List.filter_append, List.filter_cons_of_neg (by simp [h]), List.filter_nil, List.append_nil]
  simp only [List.dropLast_concat]

theorem fieldMenu_inLabelOf (hkind : f.kind.isField = true) (hnew : f.kind ∉ pre.map MenuLine.kind)
    (hlate : f.kind = .initrd → ∀ a, fieldArg .append pre = some a → takenInitrd a = none) :
    fieldMenu (inLabelOf cfg name pre) f = inLabelOf cfg name (pre ++ [f]) := by
  have hset (label : PxeLabel) (hdefault : f.kind ≠ .menuDefault) (hlabel : labelOf name (pre ++ [f]) = label) :
      (inLabelOf cfg name pre).setLabel label = inLabelOf cfg name (pre ++ [f]) := by
    rw [← hlabel]
    exact inLabelOf_setLabel hdefault
  have hfields (label : PxeLabel) (i : Option (List UInt8)) (hinitrd : (labelOf name (pre ++ [f])).initrd = i)
      (hlabel : { labelOf name (pre ++ [f]) with initrd := i } = label) : labelOf name (pre ++ [f]) = label := by
    rw [← hlabel, ← hinitrd]
  have hother : f.kind ≠ .append → f.kind ≠ .initrd → (labelOf name (pre ++ [f])).initrd = (labelOf name pre).initrd :=
    labelOf_initrd_other
  obtain ⟨kind, arg⟩ := f
  unfold fieldMenu
  rw [inLabelOf_label]
  cases kind with
  | kernel =>
    refine hset _ nofun (hfields _ _ (hother nofun nofun) ?_)
    simp [labelOf, fieldArg_other, fieldArg_last hnew]
  | append =>
    refine hset _ nofun (hfields _ _ (labelOf_append hnew rfl) ?_)
    simp [labelOf, fieldArg_other, fieldArg_last hnew]
  | initrd =>
    refine hset _ nofun (hfields _ _ (labelOf_initrd_last hnew (hlate rfl) rfl) ?_)
    simp [labelOf, fieldArg_other]
  | fdt =>
    refine hset _ nofun (hfields _ _ (hother nofun nofun) ?_)
    simp [labelOf, fieldArg_other, fieldArg_last hnew]
  | localboot =>
    refine hset _ nofun (hfields _ _ (hother nofun nofun) ?_)
    simp [labelOf, fieldArg_other, fieldArg_last hnew]
  | menuLabel =>
    refine hset _ nofun (hfields _ _ (hother nofun nofun) ?_)
    simp [labelOf, fieldArg_other, fieldArg_last hnew]
  | menuDefault =>
    have hlabel : labelOf name (pre ++ [⟨.menuDefault, arg⟩]) = labelOf name pre := by
      refine hfields _ _ (hother nofun nofun) ?_
      simp [labelOf, fieldArg_other]
    unfold inLabelOf
    rw [hlabel, List.filter_append, List.filter_cons_of_pos (by simp), List.filter_nil, List.map_append, List.map_singleton,
      List.getLast?_concat]
    rfl
  | _ => cases hkind

/-- The lines of a label, without a late `initrd` line. -/
structure LabelLines (fields : List MenuLine) : Prop where
  valid : ∀ f ∈ fields, f.kind.isField = true ∧ f.Valid
  nodup : (fields.map MenuLine.kind).Nodup
  late : ∀ a, fieldArg .append fields = some a → takenInitrd a ≠ none → fieldArg .initrd (fields.dropWhile (·.kind ≠ .append)) = none

/-- The `initrd=` of the `append` line, if it is looked at, ends with a blank. -/
def AppendEnds (fields : List MenuLine) : Prop :=
  ∀ a, fieldArg .append fields = some a → fieldArg .initrd (beforeAppend fields) = none → InitrdEnds a

theorem LabelLines.new (h : LabelLines (pre ++ f :: fields)) : f.kind ∉ pre.map MenuLine.kind := by
  have hnodup := h.nodup
  rw [List.map_append, List.map_cons] at hnodup
  intro hmem
  exact (List.nodup_append.1 hnodup).2.2 _ hmem _ List.mem_cons_self rfl

theorem fieldArg_of_left {a : List UInt8} (h : fieldArg k pre = some a) : fieldArg k (pre ++ fields) = some a := by
  unfold fieldArg at h ⊢
  obtain ⟨g, hg, rfl⟩ := Option.map_eq_some_iff.1 h
  rw [List.find?_append, hg]
  rfl

theorem LabelLines.late_line (h : LabelLines (pre ++ f :: fields)) (hf : f.kind = .initrd) :
    ∀ a, fieldArg .append pre = some a → takenInitrd a = none := by
  intro a ha
  by_contra htaken
  have hnone := h.late a (fieldArg_of_left ha) htaken
  -- the line is behind the `append` line
  have hmem : f ∈ (pre ++ f :: fields).dropWhile (·.kind ≠ .append) := by
    rw [List.dropWhile_append]
    split
    next hempty =>
      have hall := List.dropWhile_eq_nil_iff.1 (List.isEmpty_iff.1 hempty)
      obtain ⟨g, hg, -⟩ := Option.map_eq_some_iff.1 ha
      have hkind : g.kind = .append := by simpa using List.find?_some hg
      exact absurd hkind (of_decide_eq_true (hall g (List.mem_of_find?_eq_some hg)))
    · exact List.mem_append_right _ List.mem_cons_self
  unfold fieldArg at hnone
  rw [Option.map_eq_none_iff, List.find?_eq_none] at hnone
  exact hnone f hmem (decide_eq_true hf)

theorem LabelLines.reads (h : LabelLines (pre ++ f :: fields)) (happend : f.kind ≠ .append) : FieldReads (labelOf name pre) f := by
  have hnew := h.new
  have hlate := h.late_line
  obtain ⟨kind, arg⟩ := f
  unfold FieldReads
  cases kind with
  | append => exact absurd rfl happend
  | initrd => exact labelOf_initrd_none hnew (hlate rfl)
  | fdt => exact fieldArg_eq_none hnew
  | _ => trivial

/-- What an `append` line needs to be read. -/
theorem LabelLines.append_iff (h : LabelLines (pre ++ f :: fields)) (name : List UInt8) (hf : f.kind = .append) :
    AppendEnds (pre ++ f :: fields) ↔ ((labelOf name pre).initrd = none → InitrdEnds f.arg) := by
  have hnew := hf ▸ h.new
  have harg : fieldArg .append (pre ++ f :: fields) = some f.arg := by
    rw [List.append_cons]
    exact fieldArg_of_left (fieldArg_last hnew hf)
  have hbefore : beforeAppend (pre ++ f :: fields) = pre := by
    rw [beforeAppend_eq hnew, beforeAppend, List.takeWhile_cons_of_neg (by simp [hf]), List.append_nil]
  unfold AppendEnds
  rw [harg, hbefore, labelOf_initrd hnew]
  constructor
  · intro hends
    exact hends f.arg rfl
  · rintro hends _ ⟨⟩
    exact hends

/-- The lines of a label are read, by induction on those that are left. -/
theorem fields_right (h : LabelLines (pre ++ fields)) (hends : AppendEnds (pre ++ fields)) (hwrites : Writes (fields ++ lines) text) :
    ∃ text', Writes lines text' ∧ ∀ len cfg name x,
      Turns len ⟨.label, inLabelOf cfg name pre, text ++ x⟩ ⟨.label, inLabelOf cfg name (pre ++ fields), text' ++ x⟩ := by
  induction fields generalizing pre text with
  | nil =>
    rw [List.append_nil]
    exact ⟨text, hwrites, fun _ _ _ _ => Relation.ReflTransGen.refl⟩
  | cons f fields ih =>
    obtain ⟨s, text1, hs, htext1, hturns1⟩ := writes_line hwrites
    have hall : pre ++ f :: fields = pre ++ [f] ++ fields := List.append_cons pre f fields
    obtain ⟨text', htext', hturns⟩ := ih (hall ▸ h) (hall ▸ hends) htext1
    refine ⟨text', htext', fun len cfg name x => ?_⟩
    obtain ⟨hkind, hvalid⟩ := h.valid f (List.mem_append_right _ List.mem_cons_self)
    have hreads : FieldReads (inLabelOf cfg name pre).label f := by
      rw [inLabelOf_label]
      by_cases happend : f.kind = .append
      · have hf := (h.append_iff name happend).1 hends
        obtain ⟨kind, arg⟩ := f
        obtain rfl : kind = .append := happend
        exact hf
      · exact h.reads happend
    rw [hall]
    refine ((hturns1 len .label _ x nofun).trans (field_line hkind hvalid hreads hs)).trans ?_
    rw [fieldMenu_inLabelOf hkind h.new h.late_line]
    exact hturns len cfg name x

/-- An `append` line that cannot be read is come to. -/
theorem fields_wrong (h : LabelLines (pre ++ fields)) (hends : ¬AppendEnds (pre ++ fields)) (hpre : .append ∉ pre.map MenuLine.kind)
    (hwrites : Writes (fields ++ lines) text) : TurnsWrong len ⟨.label, inLabelOf cfg name pre, text ++ x⟩ := by
  induction fields generalizing pre text with
  | nil =>
    rw [List.append_nil] at hends
    refine absurd ?_ hends
    intro a ha
    rw [fieldArg_eq_none hpre] at ha
    cases ha
  | cons f fields ih =>
    obtain ⟨s, text1, hs, htext1, hturns1⟩ := writes_line hwrites
    have hall : pre ++ f :: fields = pre ++ [f] ++ fields := List.append_cons pre f fields
    obtain ⟨hkind, hvalid⟩ := h.valid f (List.mem_append_right _ List.mem_cons_self)
    refine Turns.wrong (hturns1 len .label _ x nofun) ?_
    by_cases happend : f.kind = .append
    · rw [h.append_iff name happend, Classical.not_imp] at hends
      exact append_wrong happend hvalid (inLabelOf_label ▸ hends.1) hends.2 hs
    · have hreads : FieldReads (inLabelOf cfg name pre).label f := inLabelOf_label ▸ h.reads happend
      refine Turns.wrong (field_line hkind hvalid hreads hs) ?_
      rw [fieldMenu_inLabelOf hkind h.new h.late_line]
      refine ih (hall ▸ h) (hall ▸ hends) ?_ htext1
      simpa [Ne.symm happend] using hpre

/-! ## Items -/

variable {item : MenuItem} {inLabel : Bool}

def itemLabel : MenuItem → Option PxeLabel
  | .global _ => none
  | .label name fields => some (labelOf name fields)

/-- The menu when items are read. -/
def menuWith (inLabel : Bool) (cfg : PxeMenu) (items : List MenuItem) : PxeMenu where
  title := (titlesRead inLabel items).getLast?.or cfg.title
  defaultLabel := (defaultLabels items).getLast?.or cfg.defaultLabel
  timeout := (((globalArgs .timeout items).getLast?).map fun s => (numberValue s : Int)).getD cfg.timeout
  prompt := (((globalArgs .prompt items).getLast?).map fun s => (numberValue s : Int)).getD cfg.prompt
  labels := cfg.labels ++ items.filterMap itemLabel

/-- Whether the parse is in a label when an item is read. -/
def labelAfter (inLabel : Bool) : MenuItem → Bool
  | .label _ _ => true
  | .global line => if line.kind = .title then inLabel else false

/-- The loop that reads the items. -/
def modeOf (inLabel : Bool) : PxeMode := if inLabel then .label else .top

theorem modeOf_ne_menu : modeOf inLabel ≠ .menu := by
  cases inLabel <;> nofun

theorem titlesRead_cons : titlesRead inLabel (item :: items) = titlesRead inLabel [item] ++ titlesRead (labelAfter inLabel item) items := by
  cases item with
  | label name fields => rfl
  | global line =>
    by_cases hkind : line.kind = .title
    · cases inLabel <;> simp [hkind, titlesRead, labelAfter]
    · simp [hkind, titlesRead, labelAfter]

theorem getD_or {α β : Type*} (o o' : Option α) (g : α → β) (d : β) : ((o.or o').map g).getD d = (o.map g).getD ((o'.map g).getD d) := by
  cases o <;> rfl

theorem menuWith_cons : menuWith inLabel cfg (item :: items) = menuWith (labelAfter inLabel item) (menuWith inLabel cfg [item]) items := by
  have hglobal (k : LineKind) : globalArgs k (item :: items) = globalArgs k [item] ++ globalArgs k items := by
    unfold globalArgs
    rw [← List.filterMap_append, List.singleton_append]
  have hdefault : defaultLabels (item :: items) = defaultLabels [item] ++ defaultLabels items := by
    unfold defaultLabels
    rw [← List.flatMap_append, List.singleton_append]
  have hlabels : (item :: items).filterMap itemLabel = [item].filterMap itemLabel ++ items.filterMap itemLabel := by
    rw [← List.filterMap_append, List.singleton_append]
  unfold menuWith
  rw [titlesRead_cons, hglobal, hglobal, hdefault, hlabels]
  simp only [List.getLast?_append, Option.or_assoc, getD_or, List.append_assoc]

/-- An item that is valid and has no late `initrd` line. -/
def ItemOk : MenuItem → Prop
  | .global line => line.kind.isGlobal = true ∧ line.Valid
  | .label name fields => IsString name ∧ LabelLines fields

/-- The `initrd=` of an item, if it is looked at, ends with a blank. -/
def ItemEnds : MenuItem → Prop
  | .global _ => True
  | .label _ fields => AppendEnds fields

theorem globalMenu_eq (hkind : line.kind.isGlobal = true) (htitle : line.kind = .title → inLabel = false) :
    globalMenu cfg line = menuWith inLabel cfg [.global line] := by
  obtain ⟨kind, arg⟩ := line
  cases kind with
  | title =>
    obtain rfl := htitle rfl
    simp [globalMenu, menuWith, titlesRead, defaultLabels, globalArgs, itemLabel]
  | default => simp [globalMenu, menuWith, titlesRead, defaultLabels, globalArgs, itemLabel]
  | timeout => simp [globalMenu, menuWith, titlesRead, defaultLabels, globalArgs, itemLabel]
  | prompt => simp [globalMenu, menuWith, titlesRead, defaultLabels, globalArgs, itemLabel]
  | _ => cases hkind

/-- A line outside a label is read, or left out. -/
theorem global_right (h : ItemOk (.global line)) (hwrites : Writes (line :: lines) text) :
    ∃ text', Writes lines text' ∧ ∀ len cfg x, Turns len ⟨modeOf inLabel, cfg, text ++ x⟩
        ⟨modeOf (labelAfter inLabel (.global line)), menuWith inLabel cfg [.global line], text' ++ x⟩ := by
  obtain ⟨hkind, hvalid⟩ := h
  obtain ⟨s, text', hs, htext', hturns⟩ := writes_line hwrites
  refine ⟨text', htext', fun len cfg x => (hturns len _ cfg x modeOf_ne_menu).trans ?_⟩
  cases inLabel with
  | false =>
    rw [← globalMenu_eq hkind fun _ => rfl]
    have hmode : labelAfter false (.global line) = false := by simp [labelAfter]
    rw [hmode]
    exact top_line hkind hvalid hs
  | true =>
    by_cases htitle : line.kind = .title
    · have hsame : menuWith true cfg [.global line] = cfg := by
        simp [menuWith, titlesRead, defaultLabels, globalArgs, List.filterMap_cons, itemLabel, htitle]
      have hmode : labelAfter true (.global line) = true := if_pos htitle
      rw [hsame, hmode]
      exact label_title htitle hvalid hs
    · have hmode : labelAfter true (.global line) = false := if_neg htitle
      rw [← globalMenu_eq hkind fun ht => absurd ht htitle, hmode]
      exact Relation.ReflTransGen.head (put_back (Or.inl hkind) htitle hs) (top_line hkind hvalid hs)

theorem label_begins (hname : IsString name) (hwrites : Writes (⟨.label, name⟩ :: lines) text) : ∃ text', Writes lines text' ∧ ∀ len cfg x,
      Turns len ⟨modeOf inLabel, cfg, text ++ x⟩ ⟨.label, inLabelOf cfg name [], text' ++ x⟩ := by
  obtain ⟨s, text', hs, htext', hturns⟩ := writes_line hwrites
  refine ⟨text', htext', fun len cfg x => (hturns len _ cfg x modeOf_ne_menu).trans ?_⟩
  cases inLabel with
  | false => exact name_line hname hs
  | true => exact Relation.ReflTransGen.head (put_back (Or.inr rfl) (show LineKind.label ≠ .title from nofun) hs) (name_line hname hs)

theorem inLabelOf_eq : inLabelOf cfg name fields = menuWith inLabel cfg [.label name fields] := by
  unfold inLabelOf menuWith
  have hor (o o' : Option (List UInt8)) : (o <|> o') = o.or o' := by cases o <;> rfl
  simp [titlesRead, defaultLabels, globalArgs, itemLabel, hor]

theorem item_right (h : ItemOk item) (hends : ItemEnds item) (hwrites : Writes (item.lines ++ lines) text) :
    ∃ text', Writes lines text' ∧ ∀ len cfg x,
      Turns len ⟨modeOf inLabel, cfg, text ++ x⟩ ⟨modeOf (labelAfter inLabel item), menuWith inLabel cfg [item], text' ++ x⟩ := by
  cases item with
  | global line => exact global_right h hwrites
  | label name fields =>
    obtain ⟨hname, hfields⟩ := h
    obtain ⟨text1, htext1, hturns1⟩ := label_begins hname hwrites
    obtain ⟨text', htext', hturns⟩ := fields_right (List.nil_append fields ▸ hfields) (List.nil_append fields ▸ hends) htext1
    refine ⟨text', htext', fun len cfg x => (hturns1 len cfg x).trans ?_⟩
    rw [← inLabelOf_eq]
    exact hturns len cfg name x

theorem item_wrong (h : ItemOk item) (hends : ¬ItemEnds item) (hwrites : Writes (item.lines ++ lines) text) :
    TurnsWrong len ⟨modeOf inLabel, cfg, text ++ x⟩ := by
  cases item with
  | global line => exact absurd trivial hends
  | label name fields =>
    obtain ⟨hname, hfields⟩ := h
    obtain ⟨text1, htext1, hturns1⟩ := label_begins hname hwrites
    refine Turns.wrong (hturns1 len cfg x) ?_
    exact fields_wrong (List.nil_append fields ▸ hfields) (List.nil_append fields ▸ hends) List.not_mem_nil htext1

/-- All items are read, by induction on those that are left. -/
theorem items_right (inLabel : Bool) (h : ∀ i ∈ items, ItemOk i) (hends : ∀ i ∈ items, ItemEnds i)
    (hwrites : Writes (items.flatMap MenuItem.lines) text) :
    ∃ inLabel', Turns len ⟨modeOf inLabel, cfg, text ++ x⟩ ⟨modeOf inLabel', menuWith inLabel cfg items, x⟩ := by
  induction items generalizing inLabel cfg text with
  | nil =>
    have hsame : menuWith inLabel cfg [] = cfg := by simp [menuWith, titlesRead, defaultLabels, globalArgs]
    rw [hsame]
    exact ⟨inLabel, writes_nil hwrites modeOf_ne_menu⟩
  | cons item items ih =>
    rw [List.flatMap_cons] at hwrites
    obtain ⟨text1, htext1, hturns1⟩ := item_right (h item List.mem_cons_self) (hends item List.mem_cons_self) hwrites
    obtain ⟨inLabel', hturns⟩ :=
      ih _ (fun i hi => h i (List.mem_cons_of_mem item hi)) (fun i hi => hends i (List.mem_cons_of_mem item hi)) htext1
    rw [menuWith_cons]
    exact ⟨inLabel', (hturns1 len cfg x).trans hturns⟩

theorem items_wrong (inLabel : Bool) (h : ∀ i ∈ items, ItemOk i) (hends : ¬∀ i ∈ items, ItemEnds i)
    (hwrites : Writes (items.flatMap MenuItem.lines) text) :
    TurnsWrong len ⟨modeOf inLabel, cfg, text ++ x⟩ := by
  induction items generalizing inLabel cfg text with
  | nil => exact absurd nofun hends
  | cons item items ih =>
    rw [List.flatMap_cons] at hwrites
    by_cases hitem : ItemEnds item
    · obtain ⟨text1, htext1, hturns1⟩ := item_right (h item List.mem_cons_self) hitem hwrites
      refine Turns.wrong (hturns1 len cfg x) (ih _ (fun i hi => h i (List.mem_cons_of_mem item hi)) ?_ htext1)
      intro hall
      exact hends (List.forall_mem_cons.2 ⟨hitem, hall⟩)
    · exact item_wrong (h item List.mem_cons_self) hitem hwrites

/-! ## The run in memory -/

variable {files : List UInt8 → Option (List UInt8)} {st : PxeState} {a b : Place} {mem : Nat → UInt8}

/-- A parse with one file is at a place. -/
def Stands (len : Option Nat) (st : PxeState) (a : Place) : Prop :=
  ∃ f, st.stack = [f] ∧ strlen (view st.mem f.b f.nul) = len ∧ f.mode = a.mode ∧ st.cfg = a.cfg ∧ view st.mem f.p f.nul = a.p

theorem Stands.turn (h : Stands len st a) : ∃ f, st.stack = [f] ∧ st.turn f = parseLine len a.mode a.cfg a.p := by
  obtain ⟨f, hstack, hlen, hmode, hcfg, hview⟩ := h
  refine ⟨f, hstack, ?_⟩
  rw [PxeState.turn, hlen, hmode, hcfg, hview]

theorem Stands.comes (h : Stands len st a) (hturns : Turns len a b) : ∃ st', Lib.Comes (round files) st st' ∧ Stands len st' b := by
  induction hturns with
  | refl => exact ⟨st, Relation.ReflTransGen.refl, h⟩
  | @tail b c _ hturn ih =>
    obtain ⟨st', hcomes, f, hstack, hlen, hmode, hcfg, hview⟩ := ih
    have hline : st'.turn f = some (.next c.mode c.cfg c.p) := by
      rw [PxeState.turn, hlen, hmode, hcfg, hview]
      exact hturn
    obtain ⟨hgoes, -, hview', -⟩ := goes_next files hstack hline
    exact ⟨_, hcomes.tail hgoes, f.at c.mode c.p, rfl, hlen, rfl, rfl, hview'⟩

theorem Stands.wrong (h : Stands len st a) (hwrong : TurnsWrong len a) : Lib.Outcome (round files) st none := by
  obtain ⟨b, hturns, hb⟩ := hwrong
  obtain ⟨st', hcomes, hstands⟩ : ∃ st', Lib.Comes (round files) st st' ∧ Stands len st' b := h.comes hturns
  obtain ⟨f, hstack, hturn⟩ := hstands.turn
  have hround : round files st' = none := by
    unfold round
    rw [hstack]
    simp only [hturn, hb]
  exact (Lib.outcome_of_comes hcomes).2 ⟨1, by rw [Lib.machine, hround]⟩

theorem Stands.right (h : Stands len st a) (hturns : Turns len a ⟨.top, cfg, [0]⟩) : Lib.Outcome (round files) st (some (.ok cfg)) := by
  obtain ⟨st', hcomes, hstands⟩ : ∃ st', Lib.Comes (round files) st st' ∧ Stands len st' ⟨.top, cfg, [0]⟩ := h.comes hturns
  have hcfg : st'.cfg = cfg := by
    obtain ⟨f, -, -, -, hcfg, -⟩ := hstands
    exact hcfg
  obtain ⟨f, hstack, hturn⟩ := hstands.turn
  have hgoes : Lib.Goes (round files) st' ⟨st'.mem, [], st'.cfg⟩ := by
    have hdone : parseLine len .top cfg [0] = some .done := rfl
    unfold Lib.Goes round
    rw [hstack]
    simp only [hturn, hdone]
  refine (Lib.outcome_of_comes (hcomes.tail hgoes)).2 ⟨1, ?_⟩
  rw [← hcfg]
  rfl

theorem stands_start (b : Nat) (htext : 0 ∉ text) : Stands (some text.length) (start mem b text) ⟨.top, {}, text ++ [0]⟩ := by
  have hframe := frameRefines_load mem b text
  rw [terminated_eq htext] at hframe
  exact ⟨_, rfl, (congrArg strlen hframe.file).trans (strlen_terminated htext), rfl, rfl, hframe.text⟩

theorem end_turns (inLabel : Bool) : Turns len ⟨modeOf inLabel, cfg, [0]⟩ ⟨.top, cfg, [0]⟩ := by
  cases inLabel with
  | false => exact Relation.ReflTransGen.refl
  | true =>
    have hturn : Turn len ⟨.label, cfg, [0]⟩ ⟨.top, cfg, [0]⟩ := rfl
    exact Relation.ReflTransGen.single hturn

theorem Spells.inside {s : List UInt8} (hvalid : line.Valid) (h : Spells line s) : 0 ∉ s := by
  have hend {p : List UInt8} (hp : ∀ c ∈ p, isEnd c = false) : 0 ∉ p := fun h0 => absurd (hp 0 h0) (by decide)
  have harg : 0 ∉ line.arg := by
    obtain ⟨kind, arg⟩ := line
    cases kind with
    | menuDefault =>
      obtain rfl : arg = [] := hvalid
      exact List.not_mem_nil
    | timeout => exact hend (IsNumber.isString hvalid).inside
    | prompt => exact hend (IsNumber.isString hvalid).inside
    | localboot => exact hend (IsNumber.isString hvalid).inside
    | _ => exact hend (IsString.inside hvalid)
  cases h with
  | one hwords hind hw hsep hne =>
    have hword := hend fun c hc => (hw.inside.2 c hc).2.2.1
    simp [hend hind.inside, hword, hend hsep.inside, harg, chNewline]
  | two hwords hind hw hsep hne hw' hsep' hne' =>
    have hword := hend fun c hc => (hw.inside.2 c hc).2.2.1
    have hword' := hend fun c hc => (hw'.inside.2 c hc).2.2.1
    simp [hend hind.inside, hword, hend hsep.inside, hword', hend hsep'.inside, harg, chNewline]

theorem Writes.inside (h : Writes lines text) (hvalid : ∀ line ∈ lines, line.Valid) : 0 ∉ text := by
  induction h with
  | nil => exact List.not_mem_nil
  | @noise lines s text hs _ ih =>
    refine fun h0 => (List.mem_append.1 h0).elim ?_ (ih hvalid)
    obtain ⟨ind, hind, rfl | ⟨cs, hcs, rfl⟩⟩ := hs
    · simpa [chNewline] using fun hmem => absurd (hind.inside 0 hmem) (by decide)
    · have hnot : 0 ∉ cs := fun hmem => absurd (hcs 0 hmem) (by decide)
      simpa [chNewline, chHash, hnot] using fun hmem => absurd (hind.inside 0 hmem) (by decide)
  | @line line lines s text hs _ ih =>
    refine fun h0 => (List.mem_append.1 h0).elim (hs.inside (hvalid line List.mem_cons_self)) ?_
    exact ih fun l hl => hvalid l (List.mem_cons_of_mem line hl)

theorem item_lines_valid (h : item.Valid) : ∀ line ∈ item.lines, line.Valid := by
  cases item with
  | global line =>
    intro l hl
    obtain rfl := List.mem_singleton.1 hl
    exact h.2
  | label name fields =>
    intro l hl
    rcases List.mem_cons.1 hl with rfl | hl
    · exact h.1
    · exact (h.2.1 l hl).2

theorem item_ok (h : item.Valid) (hlate : ∀ name fields a, .label name fields = item → fieldArg .append fields = some a →
    takenInitrd a ≠ none → fieldArg .initrd (fields.dropWhile (·.kind ≠ .append)) = none) : ItemOk item := by
  cases item with
  | global line => exact h
  | label name fields => exact ⟨h.1, h.2.1, h.2.2, fun a => hlate name fields a rfl⟩

theorem initrdsEnd_iff : InitrdsEnd items ↔ ∀ i ∈ items, ItemEnds i := by
  constructor
  · rintro h (line | ⟨name, fields⟩) hi
    · trivial
    · exact fun a => h name fields a hi
  · intro h name fields a hi
    exact h _ hi a

theorem menuWith_eq_menuOf :
    menuWith false {} items = menuOf items ↔ (titlesRead false items).getLast? = (globalArgs .title items).getLast? := by
  have hlabels : items.filterMap itemLabel = (menuOf items).labels := by
    refine congrArg (List.filterMap · items) (funext fun item => ?_)
    cases item <;> rfl
  have hnumber (o : Option (List UInt8)) : (o.map fun s => (numberValue s : Int)).getD 0 = ((o.map numberValue).getD 0 : Nat) := by
    cases o <;> rfl
  unfold menuWith menuOf at *
  simp [hlabels, hnumber]

end Pxe

open Pxe in
/-- Where no `initrd` line comes behind an `append` line with an `initrd=`, a written menu is read back just if each `initrd=` that is looked
at ends with a blank, and the last title is read. -/
theorem pxe_menu_read_iff (files : List UInt8 → Option (List UInt8)) (mem : Nat → UInt8) (b : Nat) (items : List MenuItem)
    (text : List UInt8) (hvalid : ∀ i ∈ items, i.Valid) (hwrites : Writes (items.flatMap MenuItem.lines) text) (hlate : NoLateInitrd items) :
    Lib.Outcome (round files) (start mem b text) (some (.ok (menuOf items))) ↔
      InitrdsEnd items ∧ (titlesRead false items).getLast? = (globalArgs .title items).getLast? := by
  have hok : ∀ i ∈ items, ItemOk i := fun i hi => item_ok (hvalid i hi) fun name fields a hname => hlate name fields a (hname ▸ hi)
  have hlines : ∀ line ∈ items.flatMap MenuItem.lines, line.Valid := by
    intro line hline
    obtain ⟨i, hi, hmem⟩ := List.mem_flatMap.1 hline
    exact item_lines_valid (hvalid i hi) line hmem
  have hstands : Stands (some text.length) (start mem b text) ⟨.top, {}, text ++ [0]⟩ := stands_start b (hwrites.inside hlines)
  rw [initrdsEnd_iff, ← menuWith_eq_menuOf]
  by_cases hends : ∀ i ∈ items, ItemEnds i
  · obtain ⟨inLabel, hturns⟩ := items_right false hok hends hwrites
    have hright : Lib.Outcome (round files) (start mem b text) (some (.ok (menuWith false {} items))) :=
      hstands.right (hturns.trans (end_turns inLabel))
    constructor
    · intro h
      have hsame := h.unique hright
      exact ⟨hends, by simpa using hsame.symm⟩
    · rintro ⟨-, hmenu⟩
      rwa [← hmenu]
  · have hwrong : Lib.Outcome (round files) (start mem b text) none :=
      hstands.wrong (items_wrong false hok hends hwrites)
    refine iff_of_false (fun h => ?_) fun h => hends h.1
    cases h.unique hwrong

namespace Pxe
variable {s : List UInt8}


instance (priority := 2000) decidableByte {p : UInt8 → Prop} [DecidablePred p] (byte : Option UInt8) : Decidable (∀ c ∈ byte, p c) :=
  Option.decidableForallMem byte

theorem isString_of (h : s ≠ [] ∧ (∀ c ∈ s, isEnd c = false) ∧ ∀ c ∈ s.head?, isblank c = false ∧ c ≠ chHash) : IsString s :=
  ⟨h.1, h.2.1, fun c hc => h.2.2 c hc⟩

theorem spells_of {line : MenuLine} (type : TokenType) (w : List UInt8) (hwords : [type] ∈ line.kind.words)
    (hw : ⟨w, type⟩ ∈ keywords) (hlower : w.map tolower = w) (hs : s = w ++ [chSpace] ++ line.arg ++ [chNewline]) : Spells line s := by
  have hblank : Blanks [chSpace] := by
    intro c hc
    obtain rfl := List.mem_singleton.1 hc
    rfl
  have hline : Spells line ([] ++ w ++ [chSpace] ++ line.arg ++ [chNewline]) :=
    Spells.one hwords nofun ⟨_, hw, rfl, hlower⟩ hblank (List.cons_ne_nil _ _)
  rwa [hs]

end Pxe

/-- A timeout and a label with a kernel and an `append` line, which has an `initrd=` in front of a word. -/
def bootItems : List Pxe.MenuItem :=
  [.global ⟨.timeout, "5".toList.map asc⟩,
    .label ("a".toList.map asc) [⟨.kernel, "k".toList.map asc⟩, ⟨.append, "initrd=x ro".toList.map asc⟩]]

open Pxe in
/-- They are read back from the file they are written in, and `x` is the `initrd`. -/
theorem pxe_menu_read_kernel : Lib.Outcome (round fun _ => none)
        (start (fun _ => 0) 0 ("timeout 5\nlabel a\nkernel k\nappend initrd=x ro\n".toList.map asc)) (some (.ok (menuOf bootItems))) ∧
      (menuOf bootItems).timeout = 5 ∧ ((menuOf bootItems).labels.map PxeLabel.initrd) = [some ("x".toList.map asc)] := by
  refine ⟨(pxe_menu_read_iff _ _ 0 bootItems _ ?_ ?_ ?_).2 ⟨?_, by decide⟩, by decide, by decide⟩
  · intro i hi
    simp only [bootItems, List.mem_cons, List.not_mem_nil, or_false] at hi
    rcases hi with rfl | rfl
    · exact ⟨rfl, IsNumber.mk (by decide) (by decide) (by decide)⟩
    · refine ⟨isString_of (by decide), fun f hf => ?_, by decide⟩
      simp only [List.mem_cons, List.not_mem_nil, or_false] at hf
      rcases hf with rfl | rfl
      · exact ⟨rfl, isString_of (by decide)⟩
      · exact ⟨rfl, isString_of (by decide)⟩
  · have htimeout : Spells ⟨.timeout, "5".toList.map asc⟩ ("timeout 5\n".toList.map asc) :=
      spells_of .timeout ("timeout".toList.map asc) (by decide) (by decide) (by decide) (by decide)
    have hname : Spells ⟨.label, "a".toList.map asc⟩ ("label a\n".toList.map asc) :=
      spells_of .label ("label".toList.map asc) (by decide) (by decide) (by decide) (by decide)
    have hkernel : Spells ⟨.kernel, "k".toList.map asc⟩ ("kernel k\n".toList.map asc) :=
      spells_of .kernel ("kernel".toList.map asc) (by decide) (by decide) (by decide) (by decide)
    have happend : Spells ⟨.append, "initrd=x ro".toList.map asc⟩ ("append initrd=x ro\n".toList.map asc) :=
      spells_of .append ("append".toList.map asc) (by decide) (by decide) (by decide) (by decide)
    exact Writes.line htimeout (Writes.line hname (Writes.line hkernel (Writes.line happend Writes.nil)))
  · intro name fields a hmem happend hinitrd
    simp only [bootItems, List.mem_cons, List.not_mem_nil, or_false, reduceCtorEq, false_or] at hmem
    cases hmem
    decide
  · intro name fields a hmem happend hinitrd i hi
    simp only [bootItems, List.mem_cons, List.not_mem_nil, or_false, reduceCtorEq, false_or] at hmem
    cases hmem
    obtain rfl : "initrd=x ro".toList.map asc = a := Option.some.inj happend
    obtain rfl : 0 = i := Option.some.inj ((show strstrAt _ _ = some 0 by decide).symm.trans hi)
    decide

open Pxe in
/-- The text `label a`, `append initrd=x`. -/
theorem pxe_menu_unread : (∀ i ∈ [MenuItem.label ("a".toList.map asc) [⟨.append, "initrd=x".toList.map asc⟩]], i.Valid) ∧
      Writes ([MenuItem.label ("a".toList.map asc) [⟨.append, "initrd=x".toList.map asc⟩]].flatMap MenuItem.lines)
        ("label a\nappend initrd=x\n".toList.map asc) ∧
      ¬Lib.Outcome (round fun _ => none) (start (fun _ => 0) 0 ("label a\nappend initrd=x\n".toList.map asc))
        (some (.ok (menuOf [.label ("a".toList.map asc) [⟨.append, "initrd=x".toList.map asc⟩]]))) := by
  refine ⟨?_, ?_, ?_⟩
  · intro i hi
    obtain rfl := List.mem_singleton.1 hi
    refine ⟨isString_of (by decide), ?_, by decide⟩
    intro f hf
    obtain rfl := List.mem_singleton.1 hf
    exact ⟨rfl, isString_of (by decide)⟩
  · have hname : Spells ⟨.label, "a".toList.map asc⟩ ("label a\n".toList.map asc) :=
      spells_of .label ("label".toList.map asc) (by decide) (by decide) (by decide) (by decide)
    have happend : Spells ⟨.append, "initrd=x".toList.map asc⟩ ("append initrd=x\n".toList.map asc) :=
      spells_of .append ("append".toList.map asc) (by decide) (by decide) (by decide) (by decide)
    exact Writes.line hname (Writes.line happend Writes.nil)
  · intro h
    have hwrong : Lib.Outcome (round fun _ => none) (start (fun _ => 0) 0 ("label a\nappend initrd=x\n".toList.map asc)) none :=
      ⟨3, by rfl⟩
    cases h.unique hwrong

end UBoot
