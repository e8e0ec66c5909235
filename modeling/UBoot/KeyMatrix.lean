import Mathlib.Logic.Function.Basic

/-!
# The keyboard matrix

`has_ghosting` and `key_matrix_decode` of drivers/input/key_matrix.c.
-/

namespace UBoot

/-- A `struct key_matrix_key`. -/
structure MatrixKey where
  row : UInt8
  col : UInt8
  valid : UInt8
deriving DecidableEq

/-- A `struct key_matrix`, as far as the decoding reads it. A map of key codes is the memory from its first byte on; that of the Fn key may
be `NULL`. -/
structure KeyMatrix where
  numCols : Int
  plainKeycode : Int → UInt8
  fnKeycode : Option (Int → UInt8)
  fnPos : Int

/-- The two loops of `has_ghosting`, with `key_in_same_col` and `key_in_same_row`: each key is compared with those after it. -/
def ghostLoop : List MatrixKey → Bool × Bool → Bool × Bool
  | [], same => same
  | key :: keys, same => ghostLoop keys (keys.foldl (fun same k => (same.1 || k.col == key.col, same.2 || k.row == key.row)) same)

def hasGhosting (keys : List MatrixKey) (valid : Nat) : Bool :=
  let same := ghostLoop (keys.take valid) (false, false)
  same.1 && same.2

def KeyMatrix.pos (config : KeyMatrix) (key : MatrixKey) : Int := key.row.toNat * config.numCols + key.col.toNat

/-- What the loop of `key_matrix_decode` works with. -/
structure KeyDecode where
  keymap : Int → UInt8
  keycode : Nat → Int
  valid : Nat

/-- The key map once a key is seen: from the Fn key on it is the map of the Fn key. -/
def KeyMatrix.keymap (config : KeyMatrix) (keymap : Int → UInt8) (pos : Int) : Int → UInt8 :=
  match config.fnKeycode with
  | some fnKeycode => if pos = config.fnPos then fnKeycode else keymap
  | none => keymap

/-- The body of the loop of `key_matrix_decode`. -/
def KeyMatrix.decodeKey (config : KeyMatrix) (maxKeycodes : Nat) (st : KeyDecode) (key : MatrixKey) : KeyDecode :=
  if key.valid = 0 then st
  else
    let pos := config.pos key
    let keymap := config.keymap st.keymap pos
    if st.valid < maxKeycodes then ⟨keymap, Function.update st.keycode st.valid (keymap pos).toNat, st.valid + 1⟩
    else { st with keymap := keymap }

/-- `key_matrix_decode`: the result, and the array `keycode`. -/
def keyMatrixDecode (config : KeyMatrix) (keys : List MatrixKey) (keycode : Nat → Int) (maxKeycodes : Nat) : Nat × (Nat → Int) :=
  let st := keys.foldl (config.decodeKey maxKeycodes) ⟨config.plainKeycode, keycode, 0⟩
  if 3 ≤ st.valid && hasGhosting keys st.valid then (0, st.keycode) else (st.valid, st.keycode)

end UBoot
