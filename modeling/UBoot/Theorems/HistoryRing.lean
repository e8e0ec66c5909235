import Mathlib.Data.List.GetD
import UBoot.CmdLine

/-!
# The command history is a ring

The line added as number `i` stands in row `i % HIST_MAX`, so the `k`-th newest of `n` lines stands in row `(n - k) % HIST_MAX`.
-/

namespace UBoot

open Lib List

/-- The lines that can be recalled after these have been added, newest first. -/
def recalled (added : List CString) : List CString := added.reverse.take (HIST_MAX - 1)

namespace HistoryAux

variable {added : List CString} {h : History}
variable {k : Nat} {r : Recall CString}

/-! ## Adding lines -/

/-- What the history holds after these lines have been added: the two indices, and the last `HIST_MAX` lines. -/
structure Stored (added : List CString) (h : History) : Prop where
  rows : h.histLines.length = 20
  max_eq : h.histMax = min (added.length : Int) 19
  add_eq : h.histAddIdx = (added.length : Int) % 20
  holds : ∀ i (hi : i < added.length), added.length ≤ i + 20 → h.histLines[i % 20]? = some added[i]

theorem stored_init : Stored [] histInit where
  rows := by simp [histInit, HIST_MAX]
  max_eq := rfl
  add_eq := by simp [histInit]
  holds := fun i hi => absurd hi (Nat.not_lt_zero i)

theorem Stored.line_eq (hs : Stored added h) {idx : Nat} (hi : idx < 20) : ∃ row, h.line idx = some row := by
  have hlt : idx < h.histLines.length := by rw [hs.rows]; exact hi
  exact ⟨h.histLines[idx], by rw [History.line, if_pos (by omega), Int.toNat_natCast, getElem?_eq_getElem hlt]⟩

theorem Stored.add (hs : Stored added h) (line : CString) : ∃ h', creadAddToHist line h = some h' ∧ Stored (added ++ [line]) h' := by
  have hmod : added.length % 20 < 20 := Nat.mod_lt _ (by decide)
  have hidx : h.histAddIdx = ((added.length % 20 : Nat) : Int) := by
    rw [hs.add_eq]
    omega
  have hlen : (added ++ [line]).length = added.length + 1 := by simp
  have hnew : (if ((added.length % 20 : Nat) : Int) + 1 ≥ (HIST_MAX : Nat) then 0 else ((added.length % 20 : Nat) : Int) + 1) =
      ((added.length + 1 : Nat) : Int) % 20 := by
    unfold HIST_MAX
    split_ifs <;> omega
  obtain ⟨row, hrow⟩ := hs.line_eq hmod
  unfold creadAddToHist
  rw [hidx, hrow]
  simp only [hnew]
  refine ⟨_, rfl, ?_, ?_, ?_, ?_⟩
  · simpa using hs.rows
  · have hmax := hs.max_eq
    simp only [hlen]
    split_ifs <;> omega
  · rw [hlen]
  · intro i hi hlast
    rw [hlen] at hi hlast
    simp only [Int.toNat_natCast, getElem?_set]
    by_cases he : i = added.length
    · subst he
      rw [if_pos rfl, if_pos (by rw [hs.rows]; exact hmod)]
      simp
    · rw [if_neg (by omega), hs.holds i (by omega) (by omega), getElem_append_left (by omega)]

theorem Stored.addAll (hs : Stored added h) (lines : List CString) :
    ∃ h', lines.foldlM (fun h line => creadAddToHist line h) h = some h' ∧ Stored (added ++ lines) h' := by
  induction lines generalizing added h with
  | nil => exact ⟨h, rfl, by simpa using hs⟩
  | cons line lines ih =>
    obtain ⟨h₁, h1, hs₁⟩ := hs.add line
    obtain ⟨h₂, h2, hs₂⟩ := ih hs₁
    exact ⟨h₂, by rw [foldlM_cons, h1]; exact h2, by simpa using hs₂⟩

/-! ## Recalling lines -/

/-- The history stands at the `k`-th newest line. -/
structure At (added : List CString) (k : Nat) (h : History) : Prop where
  stored : Stored added h
  pos_le : k ≤ min added.length 19
  cur_eq : h.histCur = ((added.length - k : Nat) : Int) % 20

theorem length_recalled (added : List CString) : (recalled added).length = min added.length 19 := by
  simp [recalled, HIST_MAX, Nat.min_comm]

theorem recalled_getElem (hk : k < (recalled added).length) (hk' : added.length - 1 - k < added.length) :
    (recalled added)[k] = added[added.length - 1 - k] := by
  simp [recalled, getElem_take, getElem_reverse]

/-- The row of the `k`-th newest line holds it. -/
theorem Stored.line_recalled (hs : Stored added h) (hk : k < (recalled added).length) :
    h.line (((added.length - (k + 1) : Nat) : Int) % 20) = some (recalled added)[k] := by
  have hk' := hk
  rw [length_recalled] at hk'
  rw [recalled_getElem hk (by omega), show (((added.length - (k + 1) : Nat) : Int) % 20) = (((added.length - 1 - k) % 20 : Nat) : Int) by omega,
    History.line, if_pos (by omega), Int.toNat_natCast, hs.holds _ (by omega) (by omega)]

/-- `hist_prev` before the oldest line goes back by one. -/
theorem histPrev_at (hat : At added k h) (hk : k < (recalled added).length) :
    ∃ h', histPrev h = some (some (recalled added)[k], h') ∧ At added (k + 1) h' := by
  have hk' := hk
  rw [length_recalled] at hk'
  have hmax := hat.stored.max_eq
  have hadd := hat.stored.add_eq
  have hcur := hat.cur_eq
  have hnew : (if h.histCur - 1 < 0 then h.histMax else h.histCur - 1) = ((added.length - (k + 1) : Nat) : Int) % 20 := by
    split <;> omega
  refine ⟨{ h with histCur := ((added.length - (k + 1) : Nat) : Int) % 20 }, ?_, ?_, by omega, rfl⟩
  · rw [histPrev, if_neg (by omega)]
    simp only [hnew]
    rw [if_neg (by omega), hat.stored.line_recalled hk]
    rfl
  · exact ⟨hat.stored.rows, hmax, hadd, hat.stored.holds⟩

/-- `hist_prev` at the oldest line stays. -/
theorem histPrev_last (hat : At added k h) (hk : k = (recalled added).length) : histPrev h = some (none, h) := by
  rw [length_recalled] at hk
  have hmax := hat.stored.max_eq
  have hadd := hat.stored.add_eq
  have hcur := hat.cur_eq
  have hnew : (if h.histCur - 1 < 0 then h.histMax else h.histCur - 1) = h.histAddIdx := by split <;> omega
  rw [histPrev, if_neg (by omega)]
  simp only [hnew, if_true]

theorem histNext_first (hat : At added 0 h) : histNext h = some (none, h) := by
  have hadd := hat.stored.add_eq
  have hcur := hat.cur_eq
  rw [histNext, if_neg (by omega), if_pos (by omega)]

theorem histNext_at (hat : At added (k + 1) h) :
    ∃ h', histNext h = some (some (if k = 0 then CString.empty else (recalled added).getD (k - 1) CString.empty), h') ∧ At added k h' := by
  have hk := hat.pos_le
  have hmax := hat.stored.max_eq
  have hadd := hat.stored.add_eq
  have hcur := hat.cur_eq
  have hnew : (if h.histCur + 1 > h.histMax then 0 else h.histCur + 1) = ((added.length - k : Nat) : Int) % 20 := by
    split <;> omega
  have hat' : At added k { h with histCur := ((added.length - k : Nat) : Int) % 20 } :=
    ⟨⟨hat.stored.rows, hmax, hadd, hat.stored.holds⟩, by omega, rfl⟩
  refine ⟨_, ?_, hat'⟩
  rw [histNext, if_neg (by omega), if_neg (by omega)]
  simp only [hnew]
  cases k with
  | zero => rw [if_pos (by omega), if_pos rfl]
  | succ k =>
    have hlt : k < (recalled added).length := by
      rw [length_recalled]
      omega
    rw [if_neg (by omega), if_neg (by omega), hat.stored.line_recalled hlt, Nat.add_sub_cancel, getD_eq_getElem _ _ hlt]
    rfl

/-- The history is the recall over these lines. -/
structure Recalls (added : List CString) (h : History) (r : Recall CString) : Prop where
  lines_eq : r.lines = recalled added
  at_pos : At added r.pos h

theorem Recalls.press (hr : Recalls added h r) (key : RecallKey) :
    ∃ h', histPress h key = some ((r.press CString.empty key).1, h') ∧ Recalls added h' (r.press CString.empty key).2 := by
  obtain ⟨lines, pos, hpos⟩ := r
  obtain ⟨hl, hat⟩ := hr
  simp only at hl hat
  subst hl
  cases key with
  | prev =>
    rcases Nat.lt_or_ge pos (recalled added).length with hlt | hge
    · obtain ⟨h', h1, hat'⟩ := histPrev_at hat hlt
      refine ⟨h', ?_, ?_⟩
      · rw [Recall.press, Recall.prev_of_lt hlt]
        exact h1
      · rw [Recall.press, Recall.prev_of_lt hlt]
        exact ⟨rfl, hat'⟩
    · have he : pos = (recalled added).length := by omega
      refine ⟨h, ?_, ?_⟩
      · rw [Recall.press, Recall.prev_of_eq he]
        exact histPrev_last hat he
      · rw [Recall.press, Recall.prev_of_eq he]
        exact ⟨rfl, hat⟩
  | next =>
    cases pos with
    | zero => exact ⟨h, histNext_first hat, rfl, hat⟩
    | succ k =>
      obtain ⟨h', h1, hat'⟩ := histNext_at hat
      refine ⟨h', ?_, rfl, hat'⟩
      show histNext h = _
      rw [h1]
      simp only [Recall.press, Recall.next]
      split
      · rfl
      · rw [getD_eq_getElem (recalled added) CString.empty (show k - 1 < (recalled added).length by omega), get_eq_getElem]

theorem Recalls.run (hr : Recalls added h r) (keys : List RecallKey) :
    ∃ h', histRun keys h = some ((r.run CString.empty keys).1, h') ∧ Recalls added h' (r.run CString.empty keys).2 := by
  induction keys generalizing h r with
  | nil => exact ⟨h, rfl, hr⟩
  | cons key keys ih =>
    obtain ⟨h₁, h1, hr₁⟩ := hr.press key
    obtain ⟨h₂, h2, hr₂⟩ := ih hr₁
    refine ⟨h₂, ?_, hr₂⟩
    rw [histRun, h1]
    simp only [h2]
    rfl

end HistoryAux

open HistoryAux

/-- The command history is a ring: after any lines added since `hist_init`, any sequence of `hist_prev` and `hist_next` uses only
rows of `hist_list` and returns what a list of the last `min n (HIST_MAX - 1)` lines, newest first, answers: the next older line
or `NULL` at the oldest one, the next newer line, the empty line after the newest, and `NULL` there. -/
theorem history_is_ring (added : List CString) (keys : List RecallKey) : (recalled added).length = min added.length (HIST_MAX - 1) ∧
      ∃ h h', added.foldlM (fun h line => creadAddToHist line h) histInit = some h ∧
        histRun keys h.atEnd = some (((Recall.start (recalled added)).run CString.empty keys).1, h') := by
  obtain ⟨h, hadd, hs⟩ := stored_init.addAll added
  rw [nil_append] at hs
  have hat : At added 0 h.atEnd := ⟨⟨hs.rows, hs.max_eq, hs.add_eq, hs.holds⟩, Nat.zero_le _, hs.add_eq⟩
  have hr : Recalls added h.atEnd (Recall.start (recalled added)) := ⟨rfl, hat⟩
  obtain ⟨h', hrun, -⟩ := hr.run keys
  exact ⟨length_recalled added, h, h', hadd, hrun⟩

end UBoot
