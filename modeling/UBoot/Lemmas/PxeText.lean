import UBoot.Theorems.PxeInside

/-!
# Files in memory as texts

As long as what is stored leaves the open files alone, the parse in memory is that of the texts.
-/

namespace UBoot

open List

namespace Pxe

/-- The open files of a state are as they were, up to their NUL. -/
def Undisturbed (st st' : PxeState) : Prop := ∀ f ∈ st.stack, ∀ a, f.b ≤ a → a ≤ f.nul → st'.mem a = st.mem a

/-- A file in memory and its text. -/
structure FrameRefines (mem : Nat → UInt8) (f : PxeFrame) (tf : TextFrame) : Prop where
  mode : f.mode = tf.mode
  file : view mem f.b f.nul = tf.file
  text : view mem f.p f.nul = tf.text
  base : f.b ≤ f.p
  terminated : ∃ s, 0 ∉ s ∧ tf.file = s ++ [0]

/-- A state in memory and one of texts. -/
structure Refines (st : PxeState) (ts : TextState) : Prop where
  cfg : st.cfg = ts.cfg
  frames : List.Forall₂ (FrameRefines st.mem) st.stack ts.stack
  sorted : st.stack.Pairwise fun f g => g.nul ≤ f.nul

variable {files : List UInt8 → Option (List UInt8)} {st st' : PxeState} {ts : TextState} {f : PxeFrame} {tf : TextFrame}
variable {mem mem' : Nat → UInt8} {p s content : List UInt8} {mode : PxeMode}

theorem strlen_terminated (h : 0 ∉ s) : strlen (s ++ [0]) = some s.length := by
  unfold strlen
  rw [findIdx?_append]
  have hnone : s.findIdx? (· = 0) = none := by
    rw [findIdx?_eq_none_iff]
    intro c hc
    exact decide_eq_false fun h0 => h (h0 ▸ hc)
  rw [hnone]
  simp

theorem view_congr {a nul : Nat} (h : ∀ x, a ≤ x → x ≤ nul → mem' x = mem x) : view mem' a nul = view mem a nul := by
  unfold view
  refine map_congr_left fun i hi => ?_
  have hlt := mem_range.1 hi
  exact h (a + i) (Nat.le_add_right a i) (by omega)

theorem FrameRefines.congr (h : FrameRefines mem f tf) (hmem : ∀ a, f.b ≤ a → a ≤ f.nul → mem' a = mem a) : FrameRefines mem' f tf := by
  refine ⟨h.mode, ?_, ?_, h.base, h.terminated⟩
  · rw [view_congr hmem, h.file]
  · rw [view_congr fun x hx => hmem x (Nat.le_trans h.base hx), h.text]

theorem FrameRefines.at (h : FrameRefines mem f tf) (hp : p <:+ tf.text) (mode : PxeMode) :
    FrameRefines mem (f.at mode p) ⟨tf.file, p, mode⟩ := by
  rw [← h.text] at hp
  refine ⟨rfl, h.file, view_at hp, ?_, h.terminated⟩
  have hle := hp.length_le
  rw [view_length] at hle
  obtain ⟨s, -, hs⟩ := h.terminated
  have hlen := congrArg List.length h.file
  rw [view_length, hs, length_append, length_singleton] at hlen
  have hbase := h.base
  change f.b ≤ f.nul + 1 - p.length
  omega

theorem FrameRefines.strlen_eq (h : FrameRefines mem f tf) : strlen tf.file = some (f.nul - f.b) ∧ f.b ≤ f.nul ∧ mem f.nul = 0 := by
  obtain ⟨s, hs, hfile⟩ := h.terminated
  have hlen := congrArg List.length h.file
  rw [view_length, hfile, length_append, length_singleton] at hlen
  refine ⟨?_, by omega, ?_⟩
  · rw [hfile, strlen_terminated hs]
    exact congrArg some (by omega)
  · have hlast : (view mem f.b f.nul)[s.length]? = some 0 := by rw [h.file, hfile, getElem?_concat_length]
    have hlt : s.length < (view mem f.b f.nul).length := by rw [view_length]; omega
    rw [getElem?_eq_getElem hlt, view_getElem] at hlast
    rw [← Option.some.inj hlast]
    exact congrArg mem (by omega)

theorem terminated_prefix (content : List UInt8) : ∃ rest, content ++ [0] = terminated content ++ rest := by
  unfold terminated
  induction content with
  | nil => exact ⟨[], rfl⟩
  | cons c content ih =>
    by_cases hc : c = 0
    · rw [takeWhile_cons_of_neg (by simp [hc]), hc]
      exact ⟨content ++ [0], rfl⟩
    · obtain ⟨rest, hrest⟩ := ih
      rw [takeWhile_cons_of_pos (by simp [hc])]
      exact ⟨rest, by rw [cons_append, hrest]; rfl⟩

theorem terminated_eq (h : 0 ∉ s) : terminated s = s ++ [0] := by
  rw [terminated, takeWhile_eq_self_iff.2]
  intro c hc
  exact decide_eq_true fun h0 => h (h0 ▸ hc)

theorem frameRefines_load (mem : Nat → UInt8) (b : Nat) (content : List UInt8) :
    FrameRefines (Lib.store mem b (content ++ [0])) ⟨b, b + textLength content, b, .top⟩ ⟨terminated content, terminated content, .top⟩ := by
  have hview : view (Lib.store mem b (content ++ [0])) b (b + textLength content) = terminated content := by
    have hlen : (terminated content).length = textLength content + 1 := by
      rw [terminated, length_append, length_singleton, textLength]
    obtain ⟨rest, hrest⟩ := terminated_prefix content
    have hstored := Lib.stored_store mem b (content ++ [0])
    rw [hrest] at hstored ⊢
    have hstart := (Lib.stored_append.1 hstored).1.prefix_map_range (Nat.le_of_eq hlen)
    have hn : b + textLength content + 1 - b = textLength content + 1 := by omega
    unfold view
    rw [hn]
    refine (hstart.eq_of_length ?_).symm
    rw [hlen, length_map, length_range]
  refine ⟨rfl, hview, hview, Nat.le_refl b, content.takeWhile (· ≠ 0), ?_, rfl⟩
  intro h0
  simpa using mem_takeWhile_imp h0

/-! ## Turns -/

theorem turn_eq (hframe : FrameRefines st.mem f tf) (hcfg : st.cfg = ts.cfg) : st.turn f = tf.turn ts.cfg := by
  unfold PxeState.turn TextFrame.turn
  rw [hframe.file, hframe.text, hframe.mode, hcfg]

theorem include_behind {offset : Nat} {path : List UInt8} {cfg : PxeMenu} (hframe : FrameRefines mem f tf)
    (hturn : tf.turn cfg = some (.include offset path mode p)) : f.nul ≤ f.b + offset := by
  obtain ⟨hlen, hle, -⟩ := hframe.strlen_eq
  unfold TextFrame.turn at hturn
  rw [hlen] at hturn
  rcases (include_cases hturn).2 with ⟨p1, -, -, hoffset, -⟩ | ⟨p1, p2, -, -, -, hoffset, -⟩
  · unfold alignFour at hoffset
    omega
  · omega

/-- A turn that leaves the open files alone is that of the texts. -/
theorem refines_reply (h : Refines st ts) (hkept : ∀ st', Lib.Goes (round files) st st' → Undisturbed st st') :
    Lib.Replies (round files) (textRound files) (Lib.Goes (textRound files)) Refines st ts := by
  obtain ⟨mem, stack, cfg⟩ := st
  obtain ⟨tstack, tcfg⟩ := ts
  obtain ⟨hcfg, hframes, hsorted⟩ := h
  simp only at hcfg hframes hsorted
  subst hcfg
  cases hframes with
  | nil => exact Lib.Replies.ends rfl rfl
  | @cons f tf rest trest hframe hrest =>
    have hturn := @turn_eq ⟨mem, f :: rest, cfg⟩ ⟨tf :: trest, cfg⟩ f tf hframe rfl
    have hround := round.eq_1 files ⟨mem, f :: rest, cfg⟩
    have htround := textRound.eq_1 files ⟨tf :: trest, cfg⟩
    simp only [hturn] at hround
    simp only at htround
    cases hx : tf.turn cfg with
    | none =>
      rw [hx] at hround htround
      exact Lib.Replies.wrong hround htround
    | some turn =>
      cases turn with
      | fail err =>
        rw [hx] at hround htround
        exact Lib.Replies.ends hround htround
      | done =>
        rw [hx] at hround htround
        exact Lib.Replies.goes hround htround ⟨rfl, hrest, (pairwise_cons.1 hsorted).2⟩
      | next mode cfg' p =>
        rw [hx] at hround htround
        have hp := (parseLine_rest hx rfl).1
        refine Lib.Replies.goes hround htround ⟨rfl, hrest.cons (hframe.at hp mode), ?_⟩
        exact pairwise_cons.2 (pairwise_cons.1 hsorted)
      | «include» offset path mode p =>
        rw [hx] at hround htround
        have hp := (parseLine_rest hx rfl).1
        have hbehind := include_behind hframe hx
        simp only at hround htround
        cases hfile : files path with
        | none =>
          rw [hfile] at hround htround
          exact Lib.Replies.ends hround htround
        | some content =>
          rw [hfile] at hround htround
          simp only [length_cons, hrest.length_eq] at hround htround
          by_cases hnest : MAX_NEST_LEVEL < trest.length + 1 + 1
          · rw [if_pos hnest] at hround htround
            exact Lib.Replies.ends hround htround
          · rw [if_neg hnest] at hround htround
            have hundist := hkept _ hround
            refine Lib.Replies.goes hround htround ⟨rfl, ?_, ?_⟩
            · refine List.Forall₂.cons (frameRefines_load mem (f.b + offset) content) (List.Forall₂.cons ?_ ?_)
              · exact (hframe.congr (hundist f mem_cons_self)).at hp mode
              · have hboth := (List.forall₂_and_left _ _).2 ⟨fun g hg => hundist g (mem_cons_of_mem f hg), hrest⟩
                exact hboth.imp fun g tg hg => hg.2.congr hg.1
            · have hsorted' := pairwise_cons.1 hsorted
              refine pairwise_cons.2 ⟨?_, pairwise_cons.2 hsorted'⟩
              intro g hg
              refine Nat.le_trans ?_ (Nat.le_add_right (f.b + offset) (textLength content))
              rcases mem_cons.1 hg with rfl | hg
              · exact hbehind
              · exact Nat.le_trans (hsorted'.1 g hg) hbehind

theorem refines_start (mem : Nat → UInt8) (b : Nat) (content : List UInt8) : Refines (start mem b content) (openText [] {} content) :=
  ⟨rfl, List.Forall₂.cons (frameRefines_load mem b content) List.Forall₂.nil, pairwise_singleton _ _⟩

/-! ## What is stored over a NUL -/

/-- The `include` at hand, in a file whose length is a multiple of 4, stores a text over the NUL of the file. -/
def Overwrites (files : List UInt8 → Option (List UInt8)) (st : PxeState) : Prop :=
  ∃ f rest p1 path p2 content, st.stack = f :: rest ∧ f.mode = .top ∧ Starts (view st.mem f.p f.nul) .include p1 ∧
    parseSliteral p1 = some (some path, p2) ∧ files path = some content ∧ textLength content ≠ 0 ∧ 4 ∣ f.nul - f.b ∧
    st.stack.length + 1 ≤ MAX_NEST_LEVEL

theorem head_of_textLength (h : textLength content = 0) : (content ++ [0])[0]? = some 0 := by
  cases content with
  | nil => rfl
  | cons c content =>
    by_cases hc : c = 0
    · rw [hc]
      rfl
    · rw [textLength, takeWhile_cons_of_pos (by simp [hc])] at h
      exact absurd h (Nat.succ_ne_zero _)

/-- What is stored leaves the open files alone, unless it goes over a NUL. -/
theorem undisturbed_of_not_overwrites (h : Refines st ts) (hover : ¬Overwrites files st) (hgoes : Lib.Goes (round files) st st') :
    Undisturbed st st' := by
  obtain ⟨f, rest, hstack, ⟨-, rfl⟩ | ⟨mode, cfg, p, -, rfl⟩ | ⟨offset, path, mode, p, content, hturn, hfile, hnest, rfl⟩⟩ := goes_cases hgoes
  · exact fun _ _ _ _ _ => rfl
  · exact fun _ _ _ _ _ => rfl
  · obtain ⟨hcfg, hframes, hsorted⟩ := h
    rw [hstack] at hframes hsorted
    obtain ⟨tf, trest, hframe, -, htstack⟩ := List.forall₂_cons_left_iff.1 hframes
    have hbehind := include_behind hframe (turn_eq hframe hcfg ▸ hturn)
    obtain ⟨hlen, hle, hnul⟩ := hframe.strlen_eq
    intro g hg a _ ha
    rw [hstack] at hg
    have hgf : g.nul ≤ f.nul := by
      rcases mem_cons.1 hg with rfl | hg
      · exact Nat.le_refl _
      · exact (pairwise_cons.1 hsorted).1 g hg
    change Lib.store st.mem (f.b + offset) (content ++ [0]) a = st.mem a
    rcases Nat.lt_or_ge a (f.b + offset) with hlt | hge
    · exact Lib.store_of_outside (Or.inl hlt)
    · -- the file is stored on the NUL, so it has no text
      obtain rfl : a = f.b + offset := by omega
      have hempty : textLength content = 0 := by
        by_contra htext
        apply hover
        unfold PxeState.turn at hturn
        rw [hframe.file, hlen] at hturn
        obtain ⟨hmode, ⟨p1, hs, hlit, hoffset, -⟩ | ⟨p1, p2, -, -, -, hoffset, -⟩⟩ := include_cases hturn
        · refine ⟨f, rest, p1, path, p, content, hstack, hmode, hs, hlit, hfile, htext, ?_, hnest⟩
          unfold alignFour at hoffset
          omega
        · omega
      have hstored := Lib.stored_store st.mem (f.b + offset) (content ++ [0]) 0 0 (head_of_textLength hempty)
      rw [Nat.add_zero] at hstored
      rw [hstored, show f.b + offset = f.nul by omega, hnul]

theorem head_ne_zero (h : textLength content ≠ 0) : ∃ c, (content ++ [0])[0]? = some c ∧ c ≠ 0 := by
  cases content with
  | nil => exact absurd rfl h
  | cons c content =>
    refine ⟨c, rfl, fun hc => h ?_⟩
    rw [textLength, takeWhile_cons_of_neg (by simp [hc])]
    rfl

/-- A turn that stores over a NUL does not leave the file alone. -/
theorem disturbed_of_overwrites (h : Refines st ts) (hover : Overwrites files st) :
    ∃ st', Lib.Goes (round files) st st' ∧ ¬Undisturbed st st' := by
  obtain ⟨f, rest, p1, path, p2, content, hstack, hmode, ⟨t, hget, htype⟩, hlit, hfile, htext, hfour, hnest⟩ := hover
  obtain ⟨hcfg, hframes, -⟩ := h
  rw [hstack] at hframes
  obtain ⟨tf, trest, hframe, -, htstack⟩ := List.forall₂_cons_left_iff.1 hframes
  obtain ⟨hlen, hle, hnul⟩ := hframe.strlen_eq
  have hturn : st.turn f = some (.include (alignFour (f.nul - f.b)) path .top p2) := by
    unfold PxeState.turn
    rw [hmode, hframe.file, hlen]
    change parseTopLine _ _ _ = _
    rw [parseTopLine, hget]
    simp only [htype, topSwitch, handleInclude, Option.map_some, hlit]
  refine ⟨load st.mem (f.at .top p2 :: rest) st.cfg (f.b + alignFour (f.nul - f.b)) content, ?_, ?_⟩
  · unfold Lib.Goes round
    rw [hstack] at hnest ⊢
    simp only [hturn, hfile]
    rw [if_neg (Nat.not_lt.2 hnest)]
  · intro hundist
    have hsame := hundist f (hstack ▸ mem_cons_self) f.nul hle (Nat.le_refl _)
    obtain ⟨c, hc, hc0⟩ := head_ne_zero htext
    have hstored := Lib.stored_store st.mem (f.b + alignFour (f.nul - f.b)) (content ++ [0]) 0 c hc
    have haddr : f.b + alignFour (f.nul - f.b) + 0 = f.nul := by
      unfold alignFour
      omega
    rw [haddr] at hstored
    exact hc0 (hstored.symm.trans (hsame.trans hnul))

/-! ## Runs -/

/-- The file server and the memory leave the open files alone in a run. -/
def KeepsFiles (files : List UInt8 → Option (List UInt8)) (st : PxeState) : Prop :=
  ∀ st1, Lib.Comes (round files) st st1 → ∀ st2, Lib.Goes (round files) st1 st2 → Undisturbed st1 st2

theorem refines_comes (h : Refines st ts) (hkept : KeepsFiles files st) (hcomes : Lib.Comes (round files) st st') :
    ∃ ts', Lib.Comes (textRound files) ts ts' ∧ Refines st' ts' := by
  induction hcomes with
  | refl => exact ⟨ts, Relation.ReflTransGen.refl, h⟩
  | @tail st1 st2 hcomes1 hgoes ih =>
    obtain ⟨ts1, htcomes, hrefines⟩ := ih
    obtain ⟨ts2, hgoes2, hrefines2⟩ := (refines_reply hrefines (hkept st1 hcomes1)).of_goes hgoes
    exact ⟨ts2, htcomes.tail hgoes2, hrefines2⟩

/-- The files are left alone in a run just if nothing is stored over a NUL. -/
theorem keepsFiles_iff (mem : Nat → UInt8) (b : Nat) (content : List UInt8) :
    KeepsFiles files (start mem b content) ↔ ∀ st, Lib.Comes (round files) (start mem b content) st → ¬Overwrites files st := by
  constructor
  · intro hkept st hcomes hover
    obtain ⟨ts, -, hrefines⟩ := refines_comes (refines_start mem b content) hkept hcomes
    obtain ⟨st', hgoes, hdist⟩ := disturbed_of_overwrites hrefines hover
    exact hdist (hkept st hcomes st' hgoes)
  · intro hover
    have hall : ∀ st, Lib.Comes (round files) (start mem b content) st → ∃ ts, Refines st ts := by
      intro st hcomes
      induction hcomes with
      | refl => exact ⟨_, refines_start mem b content⟩
      | @tail st1 st2 hcomes1 hgoes ih =>
        obtain ⟨ts1, hrefines⟩ := ih
        have hkept : ∀ st', Lib.Goes (round files) st1 st' → Undisturbed st1 st' := fun st' =>
          undisturbed_of_not_overwrites hrefines (hover st1 hcomes1)
        obtain ⟨ts2, -, hrefines2⟩ := (refines_reply hrefines hkept).of_goes hgoes
        exact ⟨ts2, hrefines2⟩
    intro st1 hcomes st2 hgoes
    obtain ⟨ts, hrefines⟩ := hall st1 hcomes
    exact undisturbed_of_not_overwrites hrefines (hover st1 hcomes) hgoes

theorem outcome_text_iff (mem : Nat → UInt8) (b : Nat) (content : List UInt8) (hkept : KeepsFiles files (start mem b content))
    (o : Option (Except PxeErr PxeMenu)) :
    Lib.Outcome (round files) (start mem b content) o ↔ Lib.Outcome (textRound files) (openText [] {} content) o := by
  refine Lib.outcome_iff_of_simulation (R := fun st ts => Refines st ts ∧ Lib.Comes (round files) (start mem b content) st) ?_
    ⟨refines_start mem b content, Relation.ReflTransGen.refl⟩ (halts _) o
  rintro st ts ⟨hrefines, hcomes⟩
  refine ⟨ts, Relation.ReflTransGen.refl, ?_⟩
  refine (refines_reply hrefines (hkept st hcomes)).imp id (fun _ => id) ?_
  intro st' ts' hgoes htgoes h
  exact ⟨ts', Relation.ReflTransGen.single htgoes, h, hcomes.tail hgoes⟩

end Pxe

end UBoot
