import UBoot.Word
import Mathlib.Data.List.Basic
import Mathlib.Logic.Function.Basic

/-!
# From key codes to characters

drivers/input/input.c. A key code is a number, an `int` has 32 bits, and the time is what `get_timer(0)` gives. The field `modifiers`, which
nothing reads, is left out. A result of `none` is a write behind `prev_keycodes`, or a wait for a character.
-/

namespace UBoot

def FLAG_NUM_LOCK : UInt8 := 1
def FLAG_CAPS_LOCK : UInt8 := 2
def FLAG_SCROLL_LOCK : UInt8 := 4
def KEY_RELEASE : Nat := 0x8000
def KEY_MASK : Nat := 0xfff
def INPUT_LED_SCROLL : UInt8 := 1
def INPUT_LED_CAPS : UInt8 := 2
def INPUT_LED_NUM : UInt8 := 4
def INPUT_BUFFER_LEN : Nat := 16
def KEY_LEFTCTRL : Nat := 29
def KEY_LEFTSHIFT : Nat := 42
def KEY_RIGHTSHIFT : Nat := 54
def KEY_CAPSLOCK : Nat := 58
def KEY_NUMLOCK : Nat := 69
def KEY_SCROLLLOCK : Nat := 70
def KEY_RIGHTCTRL : Nat := 97

/-- A `struct input_key_xlate`. -/
structure InputKeyXlate where
  leftKeycode : Int
  rightKeycode : Int
  xlate : List UInt8

/-- A `struct input_config`. The tables behind the last one are zero. -/
structure InputConfig where
  fifo : Nat → UInt8
  fifoIn : Nat
  fifoOut : Nat
  flags : UInt8
  leds : UInt8
  prevKeycodes : List Nat
  tables : List InputKeyXlate
  nextRepeatMs : Nat
  repeatDelayMs : Nat
  repeatRateMs : Nat

def inputQueueAscii (config : InputConfig) (ch : UInt8) : Int × InputConfig :=
  if config.fifoIn + 1 = INPUT_BUFFER_LEN then
    if config.fifoOut = 0 then (-1, config) else (0, { config with fifoIn := 0, fifo := Function.update config.fifo 0 ch })
  else if config.fifoIn + 1 = config.fifoOut then (-1, config)
  else (0, { config with fifoIn := config.fifoIn + 1, fifo := Function.update config.fifo (config.fifoIn + 1) ch })

/-- `input_getc`, where the keys are read elsewhere. -/
def inputGetc (config : InputConfig) : Option (UInt8 × InputConfig) :=
  if config.fifoIn = config.fifoOut then none
  else
    let fifoOut := if config.fifoOut + 1 = INPUT_BUFFER_LEN then 0 else config.fifoOut + 1
    some (config.fifo fifoOut, { config with fifoOut := fifoOut })

def inputTable (tables : List InputKeyXlate) (i : Nat) : InputKeyXlate := tables.getD i ⟨0, 0, []⟩

/-- The character of a key in a table: `0xff` stands for none. -/
def InputKeyXlate.ascii (table : InputKeyXlate) (key : Nat) : Option UInt8 :=
  match table.xlate[key]? with
  | some ch => if ch = 0xff then none else some ch
  | none => none

/-- The table that `process_modifier` answers. -/
def modifierTable (tables : List InputKeyXlate) (key : Nat) : Nat :=
  (List.range tables.length).foldl (fun table i =>
      if 1 ≤ i ∧ ((key : Int) = (inputTable tables i).leftKeycode ∨ (key : Int) = (inputTable tables i).rightKeycode) then i else table) 0

def processModifier (config : InputConfig) (key : Nat) (release : Bool) : Nat × InputConfig :=
  let table := modifierTable config.tables key
  if !release && (key == KEY_SCROLLLOCK || key == KEY_NUMLOCK || key == KEY_CAPSLOCK) then
    let led (flag led : UInt8) : UInt8 := if config.flags &&& flag ≠ 0 then led else 0
    let leds := led FLAG_NUM_LOCK INPUT_LED_NUM ||| led FLAG_CAPS_LOCK INPUT_LED_CAPS ||| led FLAG_SCROLL_LOCK INPUT_LED_SCROLL
    (table, { config with leds := leds })
  else (table, config)

/-- `sort_array_by_ordering`: the sorted array, and the number of elements that are in order. The orderings have each element once. -/
def sortArrayByOrdering (dest order : List Nat) : List Nat × Nat :=
  let same := order.filter (· ∈ dest)
  (same ++ dest.filter (· ∉ order), same.length)

/-- `input_check_keycodes`: whether the keys have changed, with the key codes sorted, and how many of them are the same. -/
def inputCheckKeycodes (config : InputConfig) (keycode : List Nat) : Option (Bool × List Nat × Nat × InputConfig) :=
  if config.tables = [] then some (true, keycode, 0, config)
  else if INPUT_BUFFER_LEN < keycode.length then none
  else
    let (keycode, same) := sortArrayByOrdering keycode config.prevKeycodes
    some (same ≠ keycode.length, keycode, same, { config with prevKeycodes := keycode })

/-- One key code of the first loop of `input_keycodes_to_ascii`. -/
def selectTable (st : Nat × InputConfig) (keycode : Nat) : Nat × InputConfig :=
  let key := keycode &&& KEY_MASK
  if (inputTable st.2.tables st.1).ascii key = none then processModifier st.2 key (keycode &&& KEY_RELEASE != 0) else st

def inputKeycodesToAscii (config : InputConfig) (keycode : List Nat) (same : Nat) : List UInt8 × InputConfig :=
  let st := keycode.foldl selectTable (0, config)
  ((keycode.drop same).filterMap (inputTable st.2.tables st.1).ascii, st.2)

def inputSendKeycodes (config : InputConfig) (keycode : List Nat) (now : Nat) : Option InputConfig :=
  match inputCheckKeycodes config keycode with
  | none => none
  | some (changed, keycode, same, config) =>
    let isRepeat := !changed && decide (sub32 now config.nextRepeatMs < 2 ^ 31)
    if !changed && !isRepeat then some config
    else
      let (ch, config) := inputKeycodesToAscii config keycode (if isRepeat then 0 else same)
      let config := ch.foldl (fun config ch => (inputQueueAscii config ch).2) config
      let delay := if isRepeat then config.repeatRateMs else config.repeatDelayMs
      some { config with nextRepeatMs := add32 now delay }

def kbdPlainXlate : List UInt8 :=
  [0xff, 0x1b, 0x31, 0x32, 0x33, 0x34, 0x35, 0x36, 0x37, 0x38, 0x39, 0x30, 0x2d, 0x3d, 0x08, 0x09,
    0x71, 0x77, 0x65, 0x72, 0x74, 0x79, 0x75, 0x69, 0x6f, 0x70, 0x5b, 0x5d, 0x0d, 0xff, 0x61, 0x73,
    0x64, 0x66, 0x67, 0x68, 0x6a, 0x6b, 0x6c, 0x3b, 0x27, 0x60, 0xff, 0x5c, 0x7a, 0x78, 0x63, 0x76,
    0x62, 0x6e, 0x6d, 0x2c, 0x2e, 0x2f, 0xff, 0xff, 0xff, 0x20, 0xff, 0xff, 0xff, 0xff, 0xff, 0xff,
    0xff, 0xff, 0xff, 0xff, 0xff, 0xff, 0xff, 0x37, 0x38, 0x39, 0x2d, 0x34, 0x35, 0x36, 0x2b, 0x31,
    0x32, 0x33, 0x30, 0x2e, 0xff, 0xff, 0xff, 0xff, 0xff, 0xff, 0xff, 0xff, 0xff, 0xff, 0xff, 0xff,
    0x0d, 0xff, 0xff]

def kbdShiftXlate : List UInt8 :=
  [0xff, 0x1b, 0x21, 0x40, 0x23, 0x24, 0x25, 0x5e, 0x26, 0x2a, 0x28, 0x29, 0x5f, 0x2b, 0x08, 0x09,
    0x51, 0x57, 0x45, 0x52, 0x54, 0x59, 0x55, 0x49, 0x4f, 0x50, 0x7b, 0x7d, 0x0d, 0xff, 0x41, 0x53,
    0x44, 0x46, 0x47, 0x48, 0x4a, 0x4b, 0x4c, 0x3a, 0x22, 0x7e, 0xff, 0x7c, 0x5a, 0x58, 0x43, 0x56,
    0x42, 0x4e, 0x4d, 0x3c, 0x3e, 0x3f, 0xff, 0xff, 0xff, 0x20, 0xff, 0xff, 0xff, 0xff, 0xff, 0xff,
    0xff, 0xff, 0xff, 0xff, 0xff, 0xff, 0xff, 0x37, 0x38, 0x39, 0x2d, 0x34, 0x35, 0x36, 0x2b, 0x31,
    0x32, 0x33, 0x30, 0x2e, 0xff, 0xff, 0xff, 0xff, 0xff, 0xff, 0xff, 0xff, 0xff, 0xff, 0xff, 0xff,
    0x0d, 0xff, 0xff]

def kbdCtrlXlate : List UInt8 :=
  [0xff, 0x1b, 0x31, 0x00, 0x33, 0x34, 0x35, 0x1e, 0x37, 0x38, 0x39, 0x30, 0x1f, 0x3d, 0x08, 0x09,
    0x11, 0x17, 0x05, 0x12, 0x14, 0x18, 0x15, 0x09, 0x0f, 0x10, 0x1b, 0x1d, 0x0a, 0xff, 0x01, 0x13,
    0x04, 0x06, 0x08, 0x09, 0x0a, 0x0b, 0x0c, 0x3b, 0x27, 0x7e, 0x00, 0x1c, 0x1a, 0x18, 0x03, 0x16,
    0x02, 0x0e, 0x0d, 0x3c, 0x3e, 0x3f, 0xff, 0xff, 0xff, 0x00, 0xff, 0xff, 0xff, 0xff, 0xff, 0xff,
    0xff, 0xff, 0xff, 0xff, 0xff, 0xff, 0xff, 0x37, 0x38, 0x39, 0x2d, 0x34, 0x35, 0x36, 0x2b, 0x31,
    0x32, 0x33, 0x30, 0x2e, 0xff, 0xff, 0xff, 0xff, 0xff, 0xff, 0xff, 0xff, 0xff, 0xff, 0xff, 0xff,
    0x0d, 0xff, 0xff]

def inputInit (leds : UInt8) (repeatDelayMs repeatRateMs : Nat) : InputConfig where
  fifo := fun _ => 0
  fifoIn := 0
  fifoOut := 0
  flags := 0
  leds := leds
  prevKeycodes := []
  tables := [⟨-1, -1, kbdPlainXlate⟩, ⟨KEY_LEFTSHIFT, KEY_RIGHTSHIFT, kbdShiftXlate⟩, ⟨KEY_LEFTCTRL, KEY_RIGHTCTRL, kbdCtrlXlate⟩]
  nextRepeatMs := 0
  repeatDelayMs := repeatDelayMs
  repeatRateMs := repeatRateMs

end UBoot
