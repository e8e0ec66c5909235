import UBoot.KeyMatrix
import Mathlib

/-!
# Invalid keys of the matrix

The loop of `key_matrix_decode` passes over the invalid keys, but `has_ghosting` compares the first entries of the list, as many as there
are valid ones.
-/

namespace UBoot

namespace KeyMatrix

variable {config : KeyMatrix} {keys : List MatrixKey} {keycode : Nat → Int} {maxKeycodes : Nat}

/-- The valid keys of a list, in order. -/
def validKeys (keys : List MatrixKey) : List MatrixKey := keys.filter fun key => key.valid ≠ 0

/-- Two keys are in one column, and two in one row. -/
def Ghosting (keys : List MatrixKey) : Prop := ¬(keys.map MatrixKey.col).Nodup ∧ ¬(keys.map MatrixKey.row).Nodup

/-- The key map after some keys: that of the Fn key if it is among them. -/
def keymapAfter (config : KeyMatrix) (keys : List MatrixKey) : Int → UInt8 :=
  match config.fnKeycode with
  | some fnKeycode => if ∃ key ∈ keys, config.pos key = config.fnPos then fnKeycode else config.plainKeycode
  | none => config.plainKeycode

def codes (config : KeyMatrix) (keys : List MatrixKey) (i : Fin keys.length) : Int :=
  (keymapAfter config (keys.take (i + 1)) (config.pos keys[i])).toNat

/-- The invalid keys have no influence: the result is that for the valid ones, 0 if there are none or some may be ghosts, and else their
key codes. -/
structure Decodes (config : KeyMatrix) (keys : List MatrixKey) (keycode : Nat → Int) (maxKeycodes : Nat) : Prop where
  same : keyMatrixDecode config keys keycode maxKeycodes = keyMatrixDecode config (validKeys keys) keycode maxKeycodes
  zero : (keyMatrixDecode config keys keycode maxKeycodes).1 = 0 ↔ validKeys keys = [] ∨ 3 ≤ (validKeys keys).length ∧ Ghosting (validKeys keys)
  codes : (keyMatrixDecode config keys keycode maxKeycodes).1 ≠ 0 →
    (keyMatrixDecode config keys keycode maxKeycodes).1 = (validKeys keys).length ∧
      ∀ i : Fin (validKeys keys).length, (keyMatrixDecode config keys keycode maxKeycodes).2 i = config.codes (validKeys keys) i

/-! ## Ghosts -/

theorem foldl_same (key : MatrixKey) (keys : List MatrixKey) (same : Bool × Bool) :
    keys.foldl (fun same k => (same.1 || k.col == key.col, same.2 || k.row == key.row)) same =
      (same.1 || decide (key.col ∈ keys.map MatrixKey.col), same.2 || decide (key.row ∈ keys.map MatrixKey.row)) := by
  induction keys generalizing same with
  | nil => simp
  | cons k keys ih =>
    rw [List.foldl_cons, ih]
    simp only [List.map_cons, List.mem_cons, Bool.or_assoc, Bool.decide_or, eq_comm, beq_eq_decide]

theorem ghostLoop_eq (keys : List MatrixKey) (same : Bool × Bool) : ghostLoop keys same =
      (same.1 || !decide (keys.map MatrixKey.col).Nodup, same.2 || !decide (keys.map MatrixKey.row).Nodup) := by
  induction keys generalizing same with
  | nil => simp [ghostLoop]
  | cons key keys ih =>
    rw [ghostLoop, foldl_same, ih]
    simp only [List.map_cons, List.nodup_cons, Bool.decide_and, decide_not, Bool.not_and, Bool.not_not, Bool.or_assoc]

theorem hasGhosting_iff (keys : List MatrixKey) (valid : Nat) : hasGhosting keys valid = true ↔ Ghosting (keys.take valid) := by
  rw [hasGhosting, ghostLoop_eq]
  simp [Ghosting]

/-! ## Decoding -/

theorem foldl_validKeys (keys : List MatrixKey) (st : KeyDecode) :
    keys.foldl (config.decodeKey maxKeycodes) st = (validKeys keys).foldl (config.decodeKey maxKeycodes) st := by
  induction keys generalizing st with
  | nil => rfl
  | cons key keys ih =>
    rw [List.foldl_cons, ih]
    simp only [validKeys, List.filter_cons]
    by_cases hvalid : key.valid = 0
    · rw [if_neg (by simpa using hvalid), decodeKey, if_pos hvalid]
    · rw [if_pos (by simpa using hvalid), List.foldl_cons]

theorem keymapAfter_nil : keymapAfter config [] = config.plainKeycode := by
  unfold keymapAfter
  split <;> simp

theorem keymapAfter_concat (keys : List MatrixKey) (key : MatrixKey) :
    config.keymap (keymapAfter config keys) (config.pos key) = keymapAfter config (keys ++ [key]) := by
  unfold keymap keymapAfter
  cases config.fnKeycode with
  | none => rfl
  | some fnKeycode =>
    by_cases hpos : config.pos key = config.fnPos
    · simp [hpos]
    · simp [hpos]

/-- What the loop has done after some keys, all of them valid: by induction from the last key on. -/
theorem foldl_decodeKey (config : KeyMatrix) (keycode : Nat → Int) (keys : List MatrixKey) (hvalid : ∀ key ∈ keys, key.valid ≠ 0)
    (hmax : keys.length ≤ maxKeycodes) :
    ∃ keycode', keys.foldl (config.decodeKey maxKeycodes) ⟨config.plainKeycode, keycode, 0⟩ =
        ⟨keymapAfter config keys, keycode', keys.length⟩ ∧ ∀ i : Fin keys.length, keycode' i = config.codes keys i := by
  induction keys using List.reverseRecOn with
  | nil => exact ⟨keycode, by rw [keymapAfter_nil]; rfl, fun i => i.elim0⟩
  | append_singleton keys key ih =>
    rw [List.length_append, List.length_singleton] at hmax
    obtain ⟨keycode', hloop, hcodes⟩ := ih (fun k hk => hvalid k (List.mem_append_left _ hk)) (by omega)
    refine ⟨Function.update keycode' keys.length (keymapAfter config (keys ++ [key]) (config.pos key)).toNat, ?_, ?_⟩
    · rw [List.foldl_append, hloop, List.foldl_cons, List.foldl_nil, decodeKey, if_neg (hvalid key (by simp))]
      simp only [keymapAfter_concat, if_pos (show keys.length < maxKeycodes by omega), List.length_append, List.length_singleton]
    · intro ⟨i, hi⟩
      rw [List.length_append, List.length_singleton] at hi
      rcases Nat.lt_or_eq_of_le (Nat.le_of_lt_succ hi) with hlt | rfl
      · rw [Function.update_of_ne (Nat.ne_of_lt hlt)]
        refine (hcodes ⟨i, hlt⟩).trans ?_
        simp only [codes, Fin.getElem_fin, List.getElem_append_left hlt]
        rw [List.take_append_of_le_length hlt]
      · have htake : (keys ++ [key]).take (keys.length + 1) = keys ++ [key] := List.take_of_length_le (by simp)
        simp [codes, htake]

theorem ghosted_eq_iff {n : Nat} {a b : Bool} : (if 3 ≤ n && a then 0 else n) = (if 3 ≤ n && b then 0 else n) ↔ n < 3 ∨ a = b := by
  rcases Nat.lt_or_ge n 3 with hlt | hge
  · simp [hlt, Nat.not_le.mpr hlt]
  · have hne : n ≠ 0 := by omega
    cases a <;> cases b <;> simp [hge, hne, hne.symm]

/-- A decoding gives the codes of the valid keys, or nothing where `has_ghosting` says so of the first entries. -/
theorem decode_eq (config : KeyMatrix) (keycode : Nat → Int) (hmax : (validKeys keys).length ≤ maxKeycodes) :
    ∃ keycode', keyMatrixDecode config keys keycode maxKeycodes =
        (if 3 ≤ (validKeys keys).length && hasGhosting keys (validKeys keys).length then 0 else (validKeys keys).length, keycode') ∧
      keyMatrixDecode config (validKeys keys) keycode maxKeycodes =
        (if 3 ≤ (validKeys keys).length && hasGhosting (validKeys keys) (validKeys keys).length then 0 else (validKeys keys).length, keycode') ∧
      ∀ i : Fin (validKeys keys).length, keycode' i = config.codes (validKeys keys) i := by
  obtain ⟨keycode', hloop, hcodes⟩ := foldl_decodeKey config keycode (validKeys keys)
    (fun key hkey => by simpa using (List.mem_filter.mp hkey).2) hmax
  refine ⟨keycode', ?_, ?_, hcodes⟩
  · simp only [keyMatrixDecode, foldl_validKeys keys, hloop]
    split <;> rfl
  · simp only [keyMatrixDecode, hloop]
    split <;> rfl

end KeyMatrix

/-- The invalid entries of a key matrix have no influence exactly if fewer than three entries are valid, or the first entries of the list, as
many as are valid, are taken for ghosts exactly if the valid ones are. -/
theorem key_matrix_decode_iff (config : KeyMatrix) (keys : List MatrixKey) (keycode : Nat → Int) (maxKeycodes : Nat)
    (hmax : (KeyMatrix.validKeys keys).length ≤ maxKeycodes) :
    KeyMatrix.Decodes config keys keycode maxKeycodes ↔ (KeyMatrix.validKeys keys).length < 3 ∨
        (KeyMatrix.Ghosting (keys.take (KeyMatrix.validKeys keys).length) ↔ KeyMatrix.Ghosting (KeyMatrix.validKeys keys)) := by
  obtain ⟨keycode', hkeys, hvalid, hcodes⟩ := KeyMatrix.decode_eq config keycode hmax
  have hghosting := KeyMatrix.hasGhosting_iff (KeyMatrix.validKeys keys) (KeyMatrix.validKeys keys).length
  rw [List.take_length] at hghosting
  rw [← hghosting, ← KeyMatrix.hasGhosting_iff, ← Bool.eq_iff_iff, ← KeyMatrix.ghosted_eq_iff]
  constructor
  · intro h
    have hsame := congrArg Prod.fst h.same
    rwa [hkeys, hvalid] at hsame
  · intro h
    have hsame : keyMatrixDecode config keys keycode maxKeycodes = keyMatrixDecode config (KeyMatrix.validKeys keys) keycode maxKeycodes := by
      rw [hkeys, hvalid, h]
    refine ⟨hsame, ?_, ?_⟩
    · rw [hsame, hvalid, ← hghosting, ← List.length_eq_zero_iff]
      split
      case isTrue hghost => simpa using Or.inr hghost
      case isFalse hghost =>
        simp only [Bool.and_eq_true, decide_eq_true_eq] at hghost
        simp [hghost]
    · rw [hsame, hvalid]
      intro hne
      split at hne
      · exact absurd rfl hne
      · rename_i hghost
        exact ⟨by simp [hghost], hcodes⟩

/-- Three keys in three rows and three columns, and a key that is up, at the end of the list. -/
theorem key_matrix_decode_three :
    KeyMatrix.Decodes ⟨3, fun pos => UInt8.ofInt pos, none, -1⟩ [⟨0, 1, 1⟩, ⟨1, 0, 1⟩, ⟨2, 2, 1⟩, ⟨0, 0, 0⟩] (fun _ => 0) 3 :=
  (key_matrix_decode_iff _ _ _ _ (by decide)).mpr (Or.inr (by unfold KeyMatrix.Ghosting; decide))

/-- With the key that is up at the front of the list, the three keys are taken for ghosts. -/
theorem key_matrix_decode_stale : ¬∀ (config : KeyMatrix) (keys : List MatrixKey) (keycode : Nat → Int) (maxKeycodes : Nat),
      (KeyMatrix.validKeys keys).length ≤ maxKeycodes → KeyMatrix.Decodes config keys keycode maxKeycodes := by
  intro h
  have hzero := (h ⟨3, fun pos => UInt8.ofInt pos, none, -1⟩ [⟨0, 0, 0⟩, ⟨0, 1, 1⟩, ⟨1, 0, 1⟩, ⟨2, 2, 1⟩] (fun _ => 0) 3 (by decide)).zero
  rcases hzero.mp (by decide) with hnone | ⟨-, hcol, -⟩
  · exact absurd hnone (by decide)
  · exact hcol (by decide)

end UBoot
