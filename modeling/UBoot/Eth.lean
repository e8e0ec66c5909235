import UBoot.CString
import Mathlib.Logic.Function.Basic

/-!
# The Ethernet devices

net/eth.c: the ring of the devices and the walks along it. A device is a pointer, and its members are functions of it. A result of
`none` is a NULL pointer that is followed, or too little fuel for a loop.
-/

namespace UBoot

inductive EthStateT where
  | init
  | passive
  | active
  deriving DecidableEq

/-- The pointers and counters of net/eth.c, the members of the devices that change, and the variable `ethact`. -/
structure EthVars (δ : Type*) where
  ethDevices : Option δ
  ethCurrent : Option δ
  next : δ → Option δ
  state : δ → EthStateT
  index : δ → Nat
  enetaddr : δ → List UInt8
  nextIndex : Nat
  firstFailed : Option δ
  netRestartWrap : Bool
  ethact : Option CString

section

variable {δ : Type*} [DecidableEq δ]

def ethCurrentChanged (name : δ → CString) (s : EthVars δ) : EthVars δ :=
  match s.ethCurrent with
  | some cur =>
    match s.ethact with
    | none => { s with ethact := some (name cur) }
    | some act => if strcmp act (name cur) ≠ 0 then { s with ethact := some (name cur) } else s
  | none => if s.ethact.isSome then { s with ethact := none } else s

/-- The loop of `eth_register`: the device whose next one is the head. -/
def ethLast (next : δ → Option δ) (head : δ) : Nat → δ → Option δ
  | 0, _ => none
  | fuel + 1, d =>
    if next d ≠ some head then
      match next d with
      | none => none
      | some d => ethLast next head fuel d
    else some d

/-- The end of `eth_register`. -/
def ethEnter (dev : δ) (s : EthVars δ) : EthVars δ :=
  { s with
    state := Function.update s.state dev .init
    next := Function.update s.next dev s.ethDevices
    index := Function.update s.index dev s.nextIndex
    nextIndex := s.nextIndex + 1 }

def ethRegister (name : δ → CString) (fuel : Nat) (dev : δ) (s : EthVars δ) : Option (Int × EthVars δ) :=
  match s.ethDevices with
  | none => some (0, ethEnter dev (ethCurrentChanged name { s with ethDevices := some dev, ethCurrent := some dev }))
  | some head =>
    match ethLast s.next head fuel head with
    | none => none
    | some d => some (0, ethEnter dev { s with next := Function.update s.next d (some dev) })

/-- The loop of `eth_unregister`: the device before the head or before `dev`, whichever comes first. -/
def ethBefore (next : δ → Option δ) (head dev : δ) : Nat → δ → Option δ
  | 0, _ => none
  | fuel + 1, cur =>
    if next cur ≠ some head ∧ next cur ≠ some dev then
      match next cur with
      | none => none
      | some cur => ethBefore next head dev fuel cur
    else some cur

/-- `eth_devices` is no longer `dev`. -/
def ethDropHead (dev : δ) (s : EthVars δ) : EthVars δ :=
  if s.ethDevices = some dev then { s with ethDevices := if s.next dev = s.ethDevices then none else s.next dev } else s

/-- `eth_current` is no longer `dev`. -/
def ethDropCurrent (name : δ → CString) (dev : δ) (s : EthVars δ) : EthVars δ :=
  if s.ethCurrent = some dev then ethCurrentChanged name { s with ethCurrent := s.ethDevices } else s

/-- `eth_unregister` behind its loop, which has found `dev` behind `cur`. -/
def ethUnlink (name : δ → CString) (cur dev : δ) (s : EthVars δ) : EthVars δ :=
  ethDropCurrent name dev (ethDropHead dev { s with next := Function.update s.next cur (s.next dev) })

def ethUnregister (name : δ → CString) (fuel : Nat) (dev : δ) (s : EthVars δ) : Option (Int × EthVars δ) :=
  match s.ethDevices with
  | none => some (-1, s)
  | some head =>
    match ethBefore s.next head dev fuel head with
    | none => none
    | some cur => if s.next cur ≠ some dev then some (-1, s) else some (0, ethUnlink name cur dev s)

/-- `no` -/
def ethrotateNo : CString := ⟨[0x6e, 0x6f], by decide⟩

/-- `eth_try_another`, with the value of `ethrotate`. -/
def ethTryAnother (name : δ → CString) (ethrotate : Option CString) (firstRestart : Bool) (s : EthVars δ) : EthVars δ :=
  if ethrotate.any fun value => strcmp value ethrotateNo = 0 then s
  else
    match s.ethCurrent with
    | none => s
    | some cur =>
      let s := if firstRestart then { s with firstFailed := s.ethCurrent } else s
      let s := ethCurrentChanged name { s with ethCurrent := s.next cur }
      if s.firstFailed = s.ethCurrent then { s with netRestartWrap := true } else s

/-- The loop of `eth_set_current`: whether it has found the name, and `eth_current`. -/
def ethFind (name : δ → CString) (next : δ → Option δ) (act : CString) (oldCurrent : δ) : Nat → δ → Option (Bool × δ)
  | 0, _ => none
  | fuel + 1, cur =>
    if strcmp (name cur) act = 0 then some (true, cur)
    else
      match next cur with
      | none => none
      | some cur => if oldCurrent ≠ cur then ethFind name next act oldCurrent fuel cur else some (false, cur)

/-- `eth_set_current`, with what `act` points to. -/
def ethSetCurrent (name : δ → CString) (fuel : Nat) (act : Option CString) (s : EthVars δ) : Option (EthVars δ) :=
  match s.ethCurrent with
  | none => some s
  | some oldCurrent =>
    match act with
    | none => some (ethCurrentChanged name s)
    | some act =>
      match ethFind name s.next act oldCurrent fuel oldCurrent with
      | none => none
      | some (true, cur) => some { s with ethCurrent := some cur }
      | some (false, cur) => some (ethCurrentChanged name { s with ethCurrent := some cur })

/-- The first loop of `eth_init`: each device gets the address that the environment has for it, if there is one. -/
def ethSyncEnv (addrs : Nat → Option (List UInt8)) (head : δ) : Nat → δ → EthVars δ → Option (EthVars δ)
  | 0, _, _ => none
  | fuel + 1, dev, s =>
    let s := match addrs (s.index dev) with
      | some addr => { s with enetaddr := Function.update s.enetaddr dev addr }
      | none => s
    match s.next dev with
    | none => none
    | some dev => if dev ≠ head then ethSyncEnv addrs head fuel dev s else some s

/-- The second loop of `eth_init`: the devices whose `init` was called are `calls`, and `inits k` is what the call `k` returns. -/
def ethTryInit (name : δ → CString) (ethrotate : Option CString) (inits : Nat → Int) (oldCurrent : Option δ) :
    Nat → List δ → EthVars δ → Option (Int × List δ × EthVars δ)
  | 0, _, _ => none
  | fuel + 1, calls, s =>
    match s.ethCurrent with
    | none => none
    | some cur =>
      if 0 ≤ inits calls.length then some (0, calls ++ [cur], { s with state := Function.update s.state cur .active })
      else
        let s := ethTryAnother name ethrotate false s
        if oldCurrent ≠ s.ethCurrent then ethTryInit name ethrotate inits oldCurrent fuel (calls ++ [cur]) s
        else some (-1, calls ++ [cur], s)

def ethInit (name : δ → CString) (fuel : Nat) (addrs : Nat → Option (List UInt8)) (ethrotate : Option CString) (inits : Nat → Int)
    (s : EthVars δ) : Option (Int × List δ × EthVars δ) :=
  match s.ethCurrent with
  | none => some (-1, [], s)
  | some _ =>
    match s.ethDevices with
    | none => none
    | some head =>
      match ethSyncEnv addrs head fuel head s with
      | none => none
      | some s => ethTryInit name ethrotate inits s.ethCurrent fuel [] s

end

/-- What is done with the devices. The variable `ethact` may change between two calls. -/
inductive EthOp (δ : Type*) where
  | register (dev : δ)
  | unregister (dev : δ)
  | tryAnother (ethrotate : Option CString) (firstRestart : Bool)
  | setCurrent (act : Option CString)
  | init (addrs : Nat → Option (List UInt8)) (ethrotate : Option CString) (inits : Nat → Int)
  | setenv (ethact : Option CString)

/-- One operation, with fuel for its loops. -/
def ethOp {δ : Type*} [DecidableEq δ] (name : δ → CString) (fuel : Nat) (s : EthVars δ) : EthOp δ → Option (EthVars δ)
  | .register dev => (ethRegister name fuel dev s).map Prod.snd
  | .unregister dev => (ethUnregister name fuel dev s).map Prod.snd
  | .tryAnother ethrotate firstRestart => some (ethTryAnother name ethrotate firstRestart s)
  | .setCurrent act => ethSetCurrent name fuel act s
  | .init addrs ethrotate inits => (ethInit name fuel addrs ethrotate inits s).map fun r => r.2.2
  | .setenv ethact => some { s with ethact := ethact }

/-- `eth_parse_enetaddr` of a string that is not NULL, `n` bytes before its end. -/
def ethParseEnetaddr : Nat → List UInt8 → List UInt8
  | 0, _ => []
  | n + 1, addr => UInt8.ofNat (simpleStrtoulHexEnd addr).1 :: ethParseEnetaddr n (simpleStrtoulHexEnd addr).2.tail

end UBoot
