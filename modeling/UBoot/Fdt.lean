import UBoot.CString
import Mathlib.Algebra.Group.Int.Defs

/-!
# The flattened device tree

The functions of lib/libfdt that the FIT code uses, on the structure block of a blob. The block is a list of tags and an offset is the
place of a tag in it; a property carries its name, which the blob keeps in the strings block. Errors of libfdt are `none`. Whether a
blob has room for a property is a parameter of `fdt_setprop`.
-/

namespace UBoot

/-- A tag of the structure block; `FDT_END` is the end of the list. -/
inductive FdtTag where
  | beginNode (name : CString)
  | endNode
  | prop (name : CString) (value : List UInt8)
  | nop
  deriving DecidableEq

/-- A structure block. -/
abbrev Fdt := List FdtTag

/-- The loop of `fdt_next_node`: the offset and the depth it comes to. -/
def fdtNextNodeLoop : List FdtTag → Nat → Int → Option Nat × Int
  | [], _, depth => (none, depth)
  | .prop _ _ :: rest, offset, depth => fdtNextNodeLoop rest (offset + 1) depth
  | .nop :: rest, offset, depth => fdtNextNodeLoop rest (offset + 1) depth
  | .beginNode _ :: _, offset, depth => (some offset, depth + 1)
  | .endNode :: rest, offset, depth =>
    if depth - 1 < 0 then (some (offset + 1), depth - 1) else fdtNextNodeLoop rest (offset + 1) (depth - 1)

def fdtNextNode (fdt : Fdt) (offset : Nat) (depth : Int) : Option Nat × Int :=
  match fdt.drop offset with
  | .beginNode _ :: rest => fdtNextNodeLoop rest (offset + 1) depth
  | _ => (none, depth)

/-- The loop of `fdt_get_property_namelen`, with `_nextprop`. -/
def fdtGetPropertyLoop (name : CString) : List FdtTag → Option (List UInt8)
  | .prop n value :: rest => if n = name then some value else fdtGetPropertyLoop name rest
  | .nop :: rest => fdtGetPropertyLoop name rest
  | _ => none

def fdtGetprop (fdt : Fdt) (offset : Nat) (name : CString) : Option (List UInt8) :=
  match fdt.drop offset with
  | .beginNode _ :: rest => fdtGetPropertyLoop name rest
  | _ => none

def fdtGetName (fdt : Fdt) (offset : Nat) : Option CString :=
  match fdt.drop offset with
  | .beginNode name :: _ => some name
  | _ => none

/-- `_fdt_resize_property` and the copy: the first property of that name gets the value. -/
def fdtResizeProperty (name : CString) (value : List UInt8) : List FdtTag → Option (List FdtTag)
  | .prop n v :: rest =>
    if n = name then some (.prop n value :: rest) else (fdtResizeProperty name value rest).map (.prop n v :: ·)
  | .nop :: rest => (fdtResizeProperty name value rest).map (.nop :: ·)
  | _ => none

/-- Whether a blob has room for a value of a property of the node at an offset. -/
abbrev FdtRoom := Fdt → Nat → CString → List UInt8 → Bool

/-- `fdt_setprop`: a property that is not there is added in front of the others. -/
def fdtSetprop (room : FdtRoom) (fdt : Fdt) (offset : Nat) (name : CString) (value : List UInt8) : Option Fdt :=
  match fdt.drop offset with
  | .beginNode _ :: rest =>
    if room fdt offset name value then
      some (fdt.take (offset + 1) ++ (fdtResizeProperty name value rest).getD (.prop name value :: rest))
    else none
  | _ => none

/-- `_fdt_nodename_eq` with the name up to the next `/` of a path: the unit address may be left out. -/
def fdtNodenameEq (node : CString) (s : List UInt8) : Bool :=
  node.bytes = s ∨ (0x40 ∉ s ∧ (s ++ [0x40]) <+: node.bytes)

/-- The loop of `fdt_subnode_offset_namelen`. -/
def fdtSubnodeOffsetLoop (fdt : Fdt) (name : List UInt8) : Nat → Option Nat × Int → Option (Option Nat)
  | 0, _ => none
  | _ + 1, (none, _) => some none
  | fuel + 1, (some offset, depth) =>
    if 0 ≤ depth then
      if depth = 1 ∧ (fdtGetName fdt offset).any (fdtNodenameEq · name) then some (some offset)
      else fdtSubnodeOffsetLoop fdt name fuel (fdtNextNode fdt offset depth)
    else some none

/-- `fdt_subnode_offset_namelen` -/
def fdtSubnodeOffset (fuel : Nat) (fdt : Fdt) (offset : Nat) (name : List UInt8) : Option (Option Nat) :=
  fdtSubnodeOffsetLoop fdt name fuel (some offset, 0)

/-- `fdt_path_offset` for a path with one name, such as `/images`. -/
def fdtPathOffset (fuel : Nat) (fdt : Fdt) (name : List UInt8) : Option (Option Nat) := fdtSubnodeOffset fuel fdt 0 name

/-! ## Trees -/

mutual

/-- A node: its name, its properties and its subnodes. -/
inductive FdtNode where
  | mk (name : CString) (props : List (Option (CString × List UInt8))) (subs : FdtSubs)

/-- The subnodes of a node; `FDT_NOP` tags may stand anywhere. -/
inductive FdtSubs where
  | nil
  | nop (rest : FdtSubs)
  | cons (node : FdtNode) (rest : FdtSubs)

end

/-- The tag of a property, or `FDT_NOP`. -/
def propTag : Option (CString × List UInt8) → FdtTag
  | none => .nop
  | some (name, value) => .prop name value

mutual

def FdtNode.flatten : FdtNode → Fdt
  | .mk name props subs => .beginNode name :: (props.map propTag ++ (subs.flatten ++ [.endNode]))

/-- The tags of subnodes. -/
def FdtSubs.flatten : FdtSubs → Fdt
  | .nil => []
  | .nop rest => .nop :: rest.flatten
  | .cons node rest => node.flatten ++ rest.flatten

end

namespace FdtNode

def name : FdtNode → CString
  | .mk name _ _ => name

/-- The subnodes. -/
def subs : FdtNode → FdtSubs
  | .mk _ _ subs => subs

/-- The first property of a name. -/
def getprop (node : FdtNode) (name : CString) : Option (List UInt8) :=
  match node with
  | .mk _ props _ => (props.filterMap id).lookup name

end FdtNode

/-- The subnodes of the first level. -/
def FdtSubs.children : FdtSubs → List FdtNode
  | .nil => []
  | .nop rest => rest.children
  | .cons node rest => node :: rest.children

mutual

/-- How many nodes a tree has. -/
def FdtNode.count : FdtNode → Nat
  | .mk _ _ subs => subs.count + 1

/-- How many nodes there are below. -/
def FdtSubs.count : FdtSubs → Nat
  | .nil => 0
  | .nop rest => rest.count
  | .cons node rest => node.count + rest.count

end

end UBoot
