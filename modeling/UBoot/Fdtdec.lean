import UBoot.CString
import UBoot.Word
import Mathlib.Data.List.Basic
import Mathlib.Logic.Function.Basic

/-!
# Numbering devices by the aliases of a device tree

`fdtdec_find_aliases_for_id` of lib/fdtdec.c. A device tree is given by what libfdt answers about it; the offset of a node is a positive
number, and offsets grow in the order of the tree. An `int` has 32 bits.
-/

namespace UBoot

/-- A property of the node `/aliases`: its name, its length, and the node of its path, a negative number if there is none. -/
structure FdtAlias where
  name : List UInt8
  len : Nat
  target : Int

/-- What libfdt answers: the nodes below the root, with their `compatible` strings and their `status`, and the properties of `/aliases`. -/
structure FdtView where
  nodes : List Nat
  compatible : Nat → List (List UInt8)
  status : Nat → Option (List UInt8)
  aliases : List FdtAlias
  sorted : nodes.Pairwise (· < ·)
  positive : ∀ node ∈ nodes, 0 < node

def okayText : List UInt8 := [0x6f, 0x6b, 0x61, 0x79]

def FdtView.isEnabled (blob : FdtView) (node : Nat) : Bool :=
  match blob.status node with
  | some cell => cell == okayText
  | none => true

def FdtView.nextCompatible (blob : FdtView) (compat : List UInt8) (node : Nat) : Option Nat :=
  blob.nodes.find? fun n => decide (node < n) && decide (compat ∈ blob.compatible n)

/-- A node lists `compat` in its property `compatible`. -/
def FdtView.isCompatible (blob : FdtView) (compat : List UInt8) (node : Nat) : Bool := decide (compat ∈ blob.compatible node)

/-- The loop that finds the compatible nodes, up to `maxcount` of them. -/
def FdtView.compatibleLoop (blob : FdtView) (compat : List UInt8) : Nat → Nat → List Nat
  | 0, _ => []
  | left + 1, node =>
    match blob.nextCompatible compat node with
    | some node => node :: blob.compatibleLoop compat left node
    | none => []

/-- What the loops work with. The array `nodes` has zeros behind its first `count` elements, which are left out. -/
structure AliasState where
  nodes : List Nat
  nodeList : Nat → Nat
  numFound : Nat

/-- `node_list[number] = node` -/
def AliasState.put (st : AliasState) (number node : Nat) : AliasState :=
  { st with
    nodeList := Function.update st.nodeList number node
    numFound := if st.numFound ≤ number then number + 1 else st.numFound }

/-- `nodes[found] = 0` -/
def AliasState.done (st : AliasState) (node : Nat) : AliasState := { st with nodes := st.nodes.set (st.nodes.idxOf node) 0 }

def FdtView.addAlias (blob : FdtView) (name : List UInt8) (maxcount : Nat) (st : AliasState) (prop : FdtAlias) : AliasState :=
  let node := if prop.len ≠ 0 ∧ name <+: prop.name then prop.target else 0
  if node ≤ 0 then st
  else
    let number := toLong (simpleStrtoul 10 (prop.name.drop name.length))
    if number < 0 ∨ maxcount ≤ number then st
    else if node.toNat ∉ st.nodes then st
    else if blob.isEnabled node.toNat then
      if st.nodeList number.toNat ≠ 0 then st else (st.put number.toNat node.toNat).done node.toNat
    else st.done node.toNat

/-- The loop over the positions from `i` on, with the nodes from `j` on. -/
def FdtView.fillLoop (blob : FdtView) : Nat → Nat → List Nat → AliasState → AliasState
  | 0, _, _, st => st
  | left + 1, i, nodes, st =>
    if st.nodeList i = 0 then
      match nodes.dropWhile fun node => !(decide (node ≠ 0) && blob.isEnabled node) with
      | [] => st
      | node :: nodes => blob.fillLoop left (i + 1) nodes (st.put i node)
    else blob.fillLoop left (i + 1) nodes st

/-- `fdtdec_find_aliases_for_id`: the number found, and `node_list`. -/
def fdtdecFindAliasesForId (blob : FdtView) (name compat : List UInt8) (maxcount : Nat) : Nat × (Nat → Nat) :=
  let st := blob.aliases.foldl (blob.addAlias name maxcount) ⟨blob.compatibleLoop compat maxcount 0, fun _ => 0, 0⟩
  let st := blob.fillLoop maxcount 0 st.nodes st
  (st.numFound, st.nodeList)

end UBoot
