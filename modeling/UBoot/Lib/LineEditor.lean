import Mathlib.Data.List.Basic

/-!
# A line of text with a cursor

The text of at most `cap` characters and a cursor between its characters or at one of its ends. A character is inserted at the cursor,
or, in overwrite mode, replaces the character there; a text that is full takes no more characters.
-/

namespace Lib

open List

/-- What can be done to a line. -/
inductive EditCommand (α : Type*) where
  | type (cs : List α)
  | left | right | home | toEnd
  | delete | backspace | kill | clear
  | toggleInsert
  | replace (line : List α)

/-- A text of at most `cap` characters with a cursor, and the mode. -/
@[ext] structure LineEditor (α : Type*) (cap : Nat) where
  text : List α
  cursor : Nat
  insert : Bool
  cursor_le : cursor ≤ text.length
  length_le : text.length ≤ cap

namespace LineEditor

variable {α : Type*} {cap : Nat}

/-- The empty line, in insert mode. -/
def empty : LineEditor α cap := ⟨[], 0, true, Nat.le_refl _, Nat.zero_le _⟩

/-- A character. It is refused when the text has to grow and is full. -/
def typeChar (e : LineEditor α cap) (c : α) : LineEditor α cap :=
  if h : e.insert = true ∨ e.cursor = e.text.length then
    if hfull : e.text.length < cap then
      ⟨e.text.take e.cursor ++ c :: e.text.drop e.cursor, e.cursor + 1, e.insert, by
        have := e.cursor_le
        simp only [length_append, length_cons, length_take, length_drop]
        omega, by
        have := e.cursor_le
        simp only [length_append, length_cons, length_take, length_drop]
        omega⟩
    else e
  else
    ⟨e.text.set e.cursor c, e.cursor + 1, e.insert, by
      have := e.cursor_le
      rw [length_set]
      omega, by
      rw [length_set]
      exact e.length_le⟩

/-- Several characters, one after the other. -/
def typeChars (e : LineEditor α cap) (cs : List α) : LineEditor α cap := cs.foldl typeChar e

/-- The character at `i` is removed and the cursor put there. -/
def eraseAt (e : LineEditor α cap) (i : Nat) (h : i < e.text.length) : LineEditor α cap :=
  ⟨e.text.eraseIdx i, i, e.insert, by rw [length_eraseIdx_of_lt h]; omega, by
    have := e.length_le
    rw [length_eraseIdx_of_lt h]
    omega⟩

/-- The cursor is put somewhere else. -/
def moveTo (e : LineEditor α cap) (i : Nat) (h : i ≤ e.text.length) : LineEditor α cap := ⟨e.text, i, e.insert, h, e.length_le⟩

def apply (e : LineEditor α cap) : EditCommand α → LineEditor α cap
  | .type cs => e.typeChars cs
  | .left => e.moveTo (e.cursor - 1) (by have := e.cursor_le; omega)
  | .right => if h : e.cursor < e.text.length then e.moveTo (e.cursor + 1) h else e
  | .home => e.moveTo 0 (Nat.zero_le _)
  | .toEnd => e.moveTo e.text.length (Nat.le_refl _)
  | .delete => if h : e.cursor < e.text.length then e.eraseAt e.cursor h else e
  | .backspace => if h : 0 < e.cursor then e.eraseAt (e.cursor - 1) (by have := e.cursor_le; omega) else e
  | .kill => ⟨e.text.take e.cursor, e.cursor, e.insert, by
      have := e.cursor_le
      rw [length_take]
      omega, by
      have := e.length_le
      rw [length_take]
      omega⟩
  | .clear => ⟨[], 0, e.insert, Nat.le_refl _, Nat.zero_le _⟩
  | .toggleInsert => ⟨e.text, e.cursor, !e.insert, e.cursor_le, e.length_le⟩
  | .replace line => if h : line.length ≤ cap then ⟨line, line.length, e.insert, Nat.le_refl _, h⟩ else e

/-- Only one command changes the mode. -/
theorem insert_apply (e : LineEditor α cap) {c : EditCommand α} (hc : c ≠ .toggleInsert) (ht : ∀ cs, c ≠ .type cs) :
    (e.apply c).insert = e.insert := by
  cases c with
  | type cs => exact absurd rfl (ht cs)
  | toggleInsert => exact absurd rfl hc
  | left => rfl
  | home => rfl
  | toEnd => rfl
  | kill => rfl
  | clear => rfl
  | right => rw [apply]; split <;> rfl
  | delete => rw [apply]; split <;> rfl
  | backspace => rw [apply]; split <;> rfl
  | replace line => rw [apply]; split <;> rfl

/-! ## The line cut at its cursor -/

/-- The text is `A` before the cursor and `B` behind it. -/
structure Cut (e : LineEditor α cap) (A B : List α) : Prop where
  text_eq : e.text = A ++ B
  cursor_eq : e.cursor = A.length

variable {e : LineEditor α cap} {A B : List α}

theorem cut_take_drop (e : LineEditor α cap) : e.Cut (e.text.take e.cursor) (e.text.drop e.cursor) :=
  ⟨(take_append_drop _ _).symm, by rw [length_take, Nat.min_eq_left e.cursor_le]⟩

theorem Cut.length_eq (h : e.Cut A B) : e.text.length = A.length + B.length := by rw [h.text_eq, length_append]

/-- The text grows by a character, in insert mode or at its end. -/
theorem Cut.typeChar_grow (h : e.Cut A B) (c : α) (hins : e.insert = true ∨ B = []) (hroom : A.length + B.length < cap) :
    (e.typeChar c).Cut (A ++ [c]) B := by
  have hlen := h.length_eq
  have hgrow : e.insert = true ∨ e.cursor = e.text.length := hins.imp_right fun hB => by rw [hlen, h.cursor_eq, hB]; rfl
  have htake : e.text.take e.cursor = A := by rw [h.text_eq, h.cursor_eq, take_left]
  have hdrop : e.text.drop e.cursor = B := by rw [h.text_eq, h.cursor_eq, drop_left]
  unfold LineEditor.typeChar
  rw [dif_pos hgrow, dif_pos (by omega)]
  exact ⟨by simp [htake, hdrop], by simp [h.cursor_eq]⟩

/-- A full text does not grow. -/
theorem Cut.typeChar_full (h : e.Cut A B) (c : α) (hins : e.insert = true ∨ B = []) (hfull : A.length + B.length = cap) : e.typeChar c = e := by
  have hlen := h.length_eq
  have hgrow : e.insert = true ∨ e.cursor = e.text.length := hins.imp_right fun hB => by rw [hlen, h.cursor_eq, hB]; rfl
  unfold LineEditor.typeChar
  rw [dif_pos hgrow, dif_neg (by omega)]

/-- In overwrite mode the character at the cursor is replaced. -/
theorem Cut.typeChar_over {x : α} (h : e.Cut A (x :: B)) (c : α) (hins : e.insert = false) : (e.typeChar c).Cut (A ++ [c]) B := by
  have hlen := h.length_eq
  have hgrow : ¬(e.insert = true ∨ e.cursor = e.text.length) := by
    rw [hins, hlen, h.cursor_eq, length_cons]
    simp
  unfold LineEditor.typeChar
  rw [dif_neg hgrow]
  refine ⟨?_, by simp [h.cursor_eq]⟩
  show e.text.set e.cursor c = _
  rw [h.text_eq, h.cursor_eq, set_append_right _ _ (Nat.le_refl _), Nat.sub_self]
  simp

/-- A character does not change the mode. -/
@[simp] theorem insert_typeChar (e : LineEditor α cap) (c : α) : (e.typeChar c).insert = e.insert := by
  unfold typeChar
  split
  · split <;> rfl
  · rfl

/-- The character at a place is removed. -/
theorem cut_eraseAt {x : α} (htext : e.text = A ++ x :: B) (h : A.length < e.text.length) : (e.eraseAt A.length h).Cut A B := by
  refine ⟨?_, rfl⟩
  show e.text.eraseIdx A.length = _
  rw [htext, eraseIdx_append_of_length_le (Nat.le_refl _), Nat.sub_self]
  rfl

theorem Cut.left {x : α} (h : e.Cut (A ++ [x]) B) : (e.apply .left).Cut A (x :: B) :=
  ⟨by rw [LineEditor.apply]; exact h.text_eq.trans (by simp), by
    show e.cursor - 1 = _
    rw [h.cursor_eq]
    simp⟩

theorem Cut.left_nil (h : e.Cut [] B) : e.apply .left = e := by
  have hcur : e.cursor = 0 := h.cursor_eq
  ext1
  · rfl
  · show e.cursor - 1 = _
    rw [hcur]
  · rfl

theorem Cut.right {x : α} (h : e.Cut A (x :: B)) : (e.apply .right).Cut (A ++ [x]) B := by
  have hlt : e.cursor < e.text.length := by
    rw [h.length_eq, h.cursor_eq, length_cons]
    omega
  rw [LineEditor.apply, dif_pos hlt]
  refine ⟨h.text_eq.trans (by simp), ?_⟩
  show e.cursor + 1 = _
  rw [h.cursor_eq]
  simp

theorem Cut.home (h : e.Cut A B) : (e.apply .home).Cut [] (A ++ B) := ⟨h.text_eq, rfl⟩

theorem Cut.toEnd (h : e.Cut A B) : (e.apply .toEnd).Cut (A ++ B) [] := ⟨by rw [append_nil]; exact h.text_eq, by
  show e.text.length = _
  rw [h.text_eq]⟩

theorem Cut.delete {x : α} (h : e.Cut A (x :: B)) : (e.apply .delete).Cut A B := by
  have hlt : A.length < e.text.length := by
    rw [h.length_eq, length_cons]
    omega
  have heq := h.cursor_eq
  rw [LineEditor.apply, dif_pos (by omega)]
  simp only [heq]
  exact cut_eraseAt h.text_eq hlt

theorem Cut.backspace {x : α} (h : e.Cut (A ++ [x]) B) : (e.apply .backspace).Cut A B := by
  have hcur := h.cursor_eq
  rw [length_append, length_singleton] at hcur
  have hlt : A.length < e.text.length := by
    rw [h.length_eq, length_append, length_singleton]
    omega
  have heq : e.cursor - 1 = A.length := by omega
  rw [LineEditor.apply, dif_pos (by omega)]
  simp only [heq]
  exact cut_eraseAt (x := x) (by rw [h.text_eq]; simp) hlt

theorem Cut.kill (h : e.Cut A B) : (e.apply .kill).Cut A [] := by
  refine ⟨?_, h.cursor_eq⟩
  show e.text.take e.cursor = _
  rw [h.text_eq, h.cursor_eq, take_left, append_nil]

/-- Characters typed at the end of a text with room for them. -/
theorem Cut.typeChars_end {cs : List α} (h : e.Cut A []) (hroom : A.length + cs.length ≤ cap) : (e.typeChars cs).Cut (A ++ cs) [] := by
  induction cs generalizing e A with
  | nil => simpa [typeChars] using h
  | cons c cs ih =>
    rw [length_cons] at hroom
    have h' := h.typeChar_grow c (Or.inr rfl) (by rw [length_nil]; omega)
    have ih' := ih h' (by rw [length_append, length_singleton]; omega)
    rwa [append_assoc, singleton_append] at ih'

/-- Typing characters does not change the mode. -/
theorem insert_typeChars (e : LineEditor α cap) (cs : List α) : (e.typeChars cs).insert = e.insert := by
  induction cs generalizing e with
  | nil => rfl
  | cons c cs ih => exact (ih _).trans (e.insert_typeChar c)

/-- Characters typed into the empty line replace it. -/
theorem typeChars_empty {cs : List α} (h : cs.length ≤ cap) :
    (empty : LineEditor α cap).typeChars cs = (empty : LineEditor α cap).apply (.replace cs) := by
  have hcut : ((empty : LineEditor α cap).typeChars cs).Cut ([] ++ cs) [] :=
    Cut.typeChars_end ⟨rfl, rfl⟩ (by rw [length_nil]; omega)
  have hins := insert_typeChars (empty : LineEditor α cap) cs
  rw [apply, dif_pos h]
  exact LineEditor.ext (by simpa using hcut.text_eq) (by simpa using hcut.cursor_eq) hins

theorem cut_replace (e : LineEditor α cap) {line : List α} (h : line.length ≤ cap) : (e.apply (.replace line)).Cut line [] := by
  rw [LineEditor.apply, dif_pos h]
  exact ⟨(append_nil _).symm, rfl⟩

end LineEditor
end Lib
