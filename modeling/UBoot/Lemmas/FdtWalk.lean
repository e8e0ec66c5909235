import UBoot.FitHash

/-!
# Walks over a flattened tree

A loop with `fdt_next_node` and a depth counter comes to the subnodes of the first level one after the other, with the depth 1; in between it
passes the nodes below them at greater depths. What such a loop does is therefore said about the tree.
-/

namespace UBoot

open List Option

namespace FdtWalk

/-! ## From one node to the next -/

variable {fdt : Fdt}

theorem fdtNextNodeLoop_props (props : List (Option (CString × List UInt8))) (rest : List FdtTag) (offset : Nat) (depth : Int) :
    fdtNextNodeLoop (props.map propTag ++ rest) offset depth = fdtNextNodeLoop rest (offset + props.length) depth := by
  induction props generalizing offset with
  | nil => rfl
  | cons p props ih =>
    rw [map_cons, cons_append, length_cons, Nat.add_comm props.length, ← Nat.add_assoc, ← ih]
    cases p with
    | none => rfl
    | some nv => rfl

theorem fdtNextNode_node (pre post : Fdt) (name : CString) (props : List (Option (CString × List UInt8))) (subs : FdtSubs) (depth : Int) :
    fdtNextNode (pre ++ (FdtNode.mk name props subs).flatten ++ post) pre.length depth =
      fdtNextNodeLoop (subs.flatten ++ .endNode :: post) (pre.length + 1 + props.length) depth := by
  rw [append_assoc, fdtNextNode, drop_left]
  simp only [FdtNode.flatten, cons_append]
  rw [append_assoc, fdtNextNodeLoop_props, append_assoc]
  rfl

theorem fdtNextNodeLoop_cons (node : FdtNode) (rest : FdtSubs) (post : Fdt) (offset : Nat) (depth : Int) :
    fdtNextNodeLoop ((FdtSubs.cons node rest).flatten ++ post) offset depth = (some offset, depth + 1) := by
  cases node with
  | mk name props subs => rfl

theorem count_node (node : FdtNode) : node.count = node.subs.count + 1 := by
  cases node with
  | mk name props subs => rfl

theorem count_cons (node : FdtNode) (rest : FdtSubs) : (FdtSubs.cons node rest).count = rest.count + node.subs.count + 1 := by
  rw [FdtSubs.count, count_node]
  omega

/-- The states of a loop from one to another, at depths greater than `d`. -/
inductive Passes (fdt : Fdt) (d : Int) : Nat → Option Nat × Int → Option Nat × Int → Prop where
  | done (st : Option Nat × Int) : Passes fdt d 0 st st
  | step {offset n : Nat} {depth : Int} {st : Option Nat × Int} :
    d < depth → Passes fdt d n (fdtNextNode fdt offset depth) st → Passes fdt d (n + 1) (some offset, depth) st

theorem Passes.mono {d d' : Int} {n : Nat} {st st' : Option Nat × Int} (hd : d ≤ d') (h : Passes fdt d' n st st') :
    Passes fdt d n st st' := by
  induction h with
  | done st => exact Passes.done st
  | step hlt _ ih => exact Passes.step (Int.lt_of_le_of_lt hd hlt) ih

theorem Passes.append {d : Int} {n m : Nat} {st st' st'' : Option Nat × Int} (h : Passes fdt d n st st')
    (h' : Passes fdt d m st' st'') : Passes fdt d (m + n) st st'' := by
  induction h with
  | done st => exact h'
  | step hlt _ ih => exact Passes.step hlt (ih h')

/-- What a walk passes over subnodes, wherever they lie. -/
def SubsPass (subs : FdtSubs) : Prop := ∀ (fdt pre post : Fdt) (d : Int), 1 ≤ d → fdt = pre ++ subs.flatten ++ post →
  Passes fdt d subs.count (fdtNextNodeLoop (subs.flatten ++ post) pre.length d) (fdtNextNodeLoop post (pre.length + subs.flatten.length) d)

/-- From a node that was visited to what lies behind it, where its subnodes are passed. -/
theorem passes_of_subs (name : CString) (props : List (Option (CString × List UInt8))) {subs : FdtSubs} (hsubs : SubsPass subs) (fdt pre post : Fdt) (d : Int)
    (hd : 1 ≤ d) (hfdt : fdt = pre ++ (FdtNode.mk name props subs).flatten ++ post) :
    Passes fdt d subs.count (fdtNextNode fdt pre.length d)
      (fdtNextNodeLoop post (pre.length + (FdtNode.mk name props subs).flatten.length) (d - 1)) := by
  have hsplit : fdt = (pre ++ .beginNode name :: props.map propTag) ++ subs.flatten ++ (.endNode :: post) := by
    rw [hfdt, FdtNode.flatten]
    simp
  have hpass := hsubs fdt (pre ++ .beginNode name :: props.map propTag) (.endNode :: post) d hd hsplit
  have hstart : (pre ++ FdtTag.beginNode name :: props.map propTag).length = pre.length + 1 + props.length := by
    simp
    omega
  have hend : fdtNextNodeLoop (.endNode :: post) (pre.length + 1 + props.length + subs.flatten.length) d =
      fdtNextNodeLoop post (pre.length + (FdtNode.mk name props subs).flatten.length) (d - 1) := by
    rw [fdtNextNodeLoop, if_neg (by omega), FdtNode.flatten]
    congr 1
    simp
    omega
  rw [hstart, hend] at hpass
  rw [hfdt, fdtNextNode_node, ← hfdt]
  exact hpass

/-- Over subnodes below the first level. -/
theorem passes_subs (subs : FdtSubs) : SubsPass subs := by
  intro fdt pre post d hd hfdt
  match subs with
  | .nil => exact Passes.done _
  | .nop rest =>
    have hpass := passes_subs rest fdt (pre ++ [.nop]) post d hd (by rw [hfdt, FdtSubs.flatten]; simp)
    rw [length_append, length_singleton, Nat.add_assoc, Nat.add_comm 1] at hpass
    rw [FdtSubs.flatten, cons_append, length_cons]
    exact hpass
  | .cons (.mk name props subs) rest =>
    have hnode := passes_of_subs name props (passes_subs subs) fdt pre (rest.flatten ++ post) (d + 1) (by omega)
      (by rw [hfdt, FdtSubs.flatten]; simp)
    have hrest := passes_subs rest fdt (pre ++ (FdtNode.mk name props subs).flatten) post d hd (by rw [hfdt, FdtSubs.flatten]; simp)
    rw [Int.add_sub_cancel] at hnode
    rw [length_append] at hrest
    rw [fdtNextNodeLoop_cons, count_cons, FdtSubs.flatten, length_append, ← Nat.add_assoc]
    exact Passes.step (by omega) ((hnode.mono (by omega)).append hrest)

theorem passes_node (node : FdtNode) (fdt pre post : Fdt) (d : Int) (hd : 1 ≤ d) (hfdt : fdt = pre ++ node.flatten ++ post) :
    Passes fdt d node.subs.count (fdtNextNode fdt pre.length d) (fdtNextNodeLoop post (pre.length + node.flatten.length) (d - 1)) := by
  cases node with
  | mk name props subs => exact passes_of_subs name props (passes_subs subs) fdt pre post d hd hfdt

/-! ## The loops -/

section

variable {body : Fdt → Nat → Option (Int × Fdt)}
variable {Bad : FdtNode → Prop} {R : FdtNode → FdtNode → Prop}

theorem subnodeWalk_passes {fdt : Fdt} {d : Int} (hd : 1 ≤ d) {n : Nat} {st st' : Option Nat × Int} (h : Passes fdt d n st st')
    (fuel : Nat) : subnodeWalk body (fuel + n) fdt st = subnodeWalk body fuel fdt st' := by
  induction h with
  | done st => rfl
  | step hlt _ ih =>
    rw [← Nat.add_assoc, subnodeWalk, if_pos (by omega), if_neg (by omega), ih]

/-- Subnodes that correspond one to one. -/
inductive SubsRel (R : FdtNode → FdtNode → Prop) : FdtSubs → FdtSubs → Prop where
  | nil : SubsRel R .nil .nil
  | nop {rest rest' : FdtSubs} : SubsRel R rest rest' → SubsRel R (.nop rest) (.nop rest')
  | cons {node node' : FdtNode} {rest rest' : FdtSubs} : R node node' → SubsRel R rest rest' →
    SubsRel R (.cons node rest) (.cons node' rest')

/-- What the body of a loop does with a subnode: it refuses it as bad, or leaves a node in its place. -/
def Acts (body : Fdt → Nat → Option (Int × Fdt)) (Bad : FdtNode → Prop) (R : FdtNode → FdtNode → Prop) (node : FdtNode) : Prop :=
  ∀ pre post : Fdt, (∃ ret fdt, ret ≠ 0 ∧ Bad node ∧ body (pre ++ node.flatten ++ post) pre.length = some (ret, fdt)) ∨
    ∃ node', R node node' ∧ body (pre ++ node.flatten ++ post) pre.length = some (0, pre ++ node'.flatten ++ post)

/-- What a loop gives: it refuses with the result of a bad subnode, or has left a node in the place of each. -/
def WalkActs (Bad : FdtNode → Prop) (R : FdtNode → FdtNode → Prop) (subs : FdtSubs) (pre post : Fdt) (res : Option (Int × Fdt)) : Prop :=
  (∃ ret fdt, ret ≠ 0 ∧ (∃ node ∈ subs.children, Bad node) ∧ res = some (ret, fdt)) ∨
    ∃ subs', SubsRel R subs subs' ∧ res = some (0, pre ++ subs'.flatten ++ .endNode :: post)

theorem subnodeWalk_subs (hR : ∀ n n', R n n' → n'.count = n.count) :
    (subs : FdtSubs) → (∀ node ∈ subs.children, Acts body Bad R node) → ∀ (fuel : Nat) (pre post : Fdt), subs.count < fuel →
      WalkActs Bad R subs pre post (subnodeWalk body fuel (pre ++ subs.flatten ++ .endNode :: post)
        (fdtNextNodeLoop (subs.flatten ++ .endNode :: post) pre.length 0))
  | .nil, _, fuel, pre, post, hfuel => by
    obtain ⟨fuel, rfl⟩ : ∃ k, fuel = k + 1 := ⟨fuel - 1, by omega⟩
    exact Or.inr ⟨.nil, SubsRel.nil, rfl⟩
  | .nop rest, hacts, fuel, pre, post, hfuel => by
    have hrest := subnodeWalk_subs hR rest hacts fuel (pre ++ [.nop]) post hfuel
    rw [length_append, length_singleton] at hrest
    have hfdt (subs : FdtSubs) : pre ++ [FdtTag.nop] ++ subs.flatten ++ .endNode :: post =
        pre ++ (FdtSubs.nop subs).flatten ++ .endNode :: post := by
      simp [FdtSubs.flatten]
    rw [hfdt] at hrest
    rcases hrest with h | ⟨subs', hrel, h⟩
    · exact Or.inl h
    · exact Or.inr ⟨.nop subs', SubsRel.nop hrel, h.trans (by rw [hfdt])⟩
  | .cons node rest, hacts, fuel, pre, post, hfuel => by
    have hcount := count_cons node rest
    obtain ⟨fuel, rfl⟩ : ∃ k, fuel = k + 1 := ⟨fuel - 1, by omega⟩
    have hfdt (node : FdtNode) : pre ++ (FdtSubs.cons node rest).flatten ++ .endNode :: post =
        pre ++ node.flatten ++ (rest.flatten ++ .endNode :: post) := by
      simp [FdtSubs.flatten]
    rw [fdtNextNodeLoop_cons, Int.zero_add, hfdt, subnodeWalk, if_pos (by decide), if_pos rfl]
    rcases hacts node (mem_cons_self ..) pre (rest.flatten ++ .endNode :: post) with ⟨ret, fdt, hret, hbad, hbody⟩ | ⟨node', hnode, hbody⟩
    · left
      refine ⟨ret, fdt, hret, ⟨node, mem_cons_self .., hbad⟩, ?_⟩
      simp only [hbody, if_pos hret]
    · simp only [hbody, ne_eq, not_true_eq_false, if_false]
      -- the walk passes the nodes below the one that was left
      have hcount' := hR node node' hnode
      have hbelow := count_node node'
      have hbelow' := count_node node
      have hpass := passes_node node' _ pre (rest.flatten ++ .endNode :: post) 1 (by decide) rfl
      obtain ⟨k, rfl⟩ : ∃ k, fuel = k + node'.subs.count := ⟨fuel - node'.subs.count, by omega⟩
      rw [subnodeWalk_passes (by decide) hpass k]
      have hrest := subnodeWalk_subs hR rest (fun n hn => hacts n (mem_cons_of_mem _ hn)) k (pre ++ node'.flatten) post (by omega)
      rw [length_append, append_assoc (pre ++ node'.flatten)] at hrest
      rcases hrest with ⟨ret, fdt, hret, ⟨n, hn, hbad⟩, h⟩ | ⟨subs', hrel, h⟩
      · exact Or.inl ⟨ret, fdt, hret, ⟨n, mem_cons_of_mem _ hn, hbad⟩, h⟩
      · exact Or.inr ⟨.cons node' subs', SubsRel.cons hnode hrel, h.trans (by simp [FdtSubs.flatten])⟩

theorem forSubnodes_node (hR : ∀ n n', R n n' → n'.count = n.count)
    (name : CString) (props : List (Option (CString × List UInt8))) (subs : FdtSubs) (hacts : ∀ node ∈ subs.children, Acts body Bad R node)
    {fuel : Nat} (hfuel : subs.count < fuel) (pre post : Fdt) :
    (∃ ret fdt, ret ≠ 0 ∧ (∃ node ∈ subs.children, Bad node) ∧
      forSubnodes body fuel (pre ++ (FdtNode.mk name props subs).flatten ++ post) pre.length = some (ret, fdt)) ∨
    ∃ subs', SubsRel R subs subs' ∧ forSubnodes body fuel (pre ++ (FdtNode.mk name props subs).flatten ++ post) pre.length =
      some (0, pre ++ (FdtNode.mk name props subs').flatten ++ post) := by
  have hfdt (subs : FdtSubs) : pre ++ (FdtNode.mk name props subs).flatten ++ post =
      (pre ++ .beginNode name :: props.map propTag) ++ subs.flatten ++ .endNode :: post := by
    simp [FdtNode.flatten]
  have hstart : (pre ++ FdtTag.beginNode name :: props.map propTag).length = pre.length + 1 + props.length := by
    simp
    omega
  rw [forSubnodes, fdtNextNode_node, hfdt, ← hstart]
  rcases subnodeWalk_subs hR subs hacts fuel (pre ++ .beginNode name :: props.map propTag) post hfuel with h | ⟨subs', hrel, h⟩
  · exact Or.inl h
  · exact Or.inr ⟨subs', hrel, h.trans (by rw [hfdt])⟩

end

/-! ## Properties -/

theorem fdtGetPropertyLoop_subs (name : CString) (post : Fdt) :
    (subs : FdtSubs) → fdtGetPropertyLoop name (subs.flatten ++ .endNode :: post) = none
  | .nil => rfl
  | .nop rest => fdtGetPropertyLoop_subs name post rest
  | .cons (.mk _ _ _) _ => rfl

theorem fdtResizeProperty_subs (name : CString) (value : List UInt8) (post : Fdt) :
    (subs : FdtSubs) → fdtResizeProperty name value (subs.flatten ++ .endNode :: post) = none
  | .nil => rfl
  | .nop rest => by
    rw [FdtSubs.flatten, cons_append, fdtResizeProperty, fdtResizeProperty_subs name value post rest]
    rfl
  | .cons (.mk _ _ _) _ => rfl

theorem lookup_cons_some (k n : CString) (value : List UInt8) (props : List (Option (CString × List UInt8))) :
    ((some (k, value) :: props).filterMap id).lookup n = if n = k then some value else (props.filterMap id).lookup n := by
  have hcons : (some (k, value) :: props).filterMap id = (k, value) :: props.filterMap id := rfl
  rw [hcons, lookup_cons]
  by_cases h : n = k
  · rw [if_pos h, beq_iff_eq.2 h]
  · rw [if_neg h, beq_eq_false_iff_ne.2 h]

theorem fdtGetprop_node (pre post : Fdt) (node : FdtNode) (name : CString) :
    fdtGetprop (pre ++ node.flatten ++ post) pre.length name = node.getprop name := by
  cases node with
  | mk nm props subs =>
    rw [append_assoc, fdtGetprop, drop_left]
    simp only [FdtNode.flatten, cons_append, append_assoc, nil_append, FdtNode.getprop]
    induction props with
    | nil => exact fdtGetPropertyLoop_subs name post subs
    | cons p props ih =>
      cases p with
      | none => exact ih
      | some nv =>
        obtain ⟨n, v⟩ := nv
        rw [lookup_cons_some, map_cons, cons_append, propTag, fdtGetPropertyLoop, ih]
        by_cases h : n = name
        · rw [if_pos h, if_pos h.symm]
        · rw [if_neg h, if_neg (Ne.symm h)]

theorem fdtGetName_node (pre post : Fdt) (node : FdtNode) : fdtGetName (pre ++ node.flatten ++ post) pre.length = some node.name := by
  cases node with
  | mk name props subs =>
    rw [append_assoc, fdtGetName, drop_left]
    rfl

/-- The properties with a new value for the first of a name. -/
def resizeProps (name : CString) (value : List UInt8) : List (Option (CString × List UInt8)) → Option (List (Option (CString × List UInt8)))
  | [] => none
  | none :: rest => (resizeProps name value rest).map (none :: ·)
  | some (n, v) :: rest => if n = name then some (some (n, value) :: rest) else (resizeProps name value rest).map (some (n, v) :: ·)

/-- A node with a property set. -/
def setprop (name : CString) (value : List UInt8) : FdtNode → FdtNode
  | .mk nm props subs => .mk nm ((resizeProps name value props).getD (some (name, value) :: props)) subs

theorem fdtResizeProperty_props (name : CString) (value : List UInt8) (props : List (Option (CString × List UInt8))) (subs : FdtSubs)
    (post : Fdt) : fdtResizeProperty name value (props.map propTag ++ (subs.flatten ++ .endNode :: post)) =
      (resizeProps name value props).map fun props' => props'.map propTag ++ (subs.flatten ++ .endNode :: post) := by
  induction props with
  | nil => exact fdtResizeProperty_subs name value post subs
  | cons p props ih =>
    cases p with
    | none =>
      simp only [List.map_cons, List.cons_append, propTag, fdtResizeProperty, resizeProps, ih, Option.map_map]
      rfl
    | some nv =>
      obtain ⟨n, v⟩ := nv
      simp only [map_cons, cons_append, propTag, fdtResizeProperty, resizeProps]
      split
      · rfl
      · rw [ih, Option.map_map, Option.map_map]
        rfl

theorem fdtSetprop_node (room : FdtRoom) (pre post : Fdt) (node : FdtNode) (name : CString) (value : List UInt8) :
    fdtSetprop room (pre ++ node.flatten ++ post) pre.length name value = none ∨
      fdtSetprop room (pre ++ node.flatten ++ post) pre.length name value = some (pre ++ (setprop name value node).flatten ++ post) := by
  cases node with
  | mk nm props subs =>
    have hdrop : (pre ++ (FdtNode.mk nm props subs).flatten ++ post).drop pre.length =
        .beginNode nm :: (props.map propTag ++ (subs.flatten ++ .endNode :: post)) := by
      rw [append_assoc, drop_left]
      simp [FdtNode.flatten]
    have htake : (pre ++ (FdtNode.mk nm props subs).flatten ++ post).take (pre.length + 1) = pre ++ [.beginNode nm] := by
      rw [append_assoc, take_append, take_of_length_le (Nat.le_succ _), Nat.add_sub_cancel_left]
      simp [FdtNode.flatten]
    rw [fdtSetprop]
    simp only [hdrop]
    split
    · right
      rw [htake, fdtResizeProperty_props, setprop]
      cases resizeProps name value props with
      | none => simp [FdtNode.flatten, propTag]
      | some props' => simp [FdtNode.flatten]
    · exact Or.inl rfl

theorem lookup_resizeProps (name : CString) (value : List UInt8) (props : List (Option (CString × List UInt8))) (n : CString) :
    (((resizeProps name value props).getD (some (name, value) :: props)).filterMap id).lookup n =
      if n = name then some value else (props.filterMap id).lookup n := by
  induction props with
  | nil => exact lookup_cons_some name n value []
  | cons p props ih =>
    cases p with
    | none =>
      rw [resizeProps]
      cases hres : resizeProps name value props with
      | none => exact lookup_cons_some name n value (none :: props)
      | some props' =>
        rw [hres] at ih
        exact ih
    | some nv =>
      obtain ⟨k, v⟩ := nv
      rw [resizeProps]
      by_cases hk : k = name
      · rw [if_pos hk, getD_some, lookup_cons_some, lookup_cons_some, hk]
        split
        · rfl
        · rfl
      · rw [if_neg hk]
        cases hres : resizeProps name value props with
        | none => exact lookup_cons_some name n value (some (k, v) :: props)
        | some props' =>
          rw [hres, getD_some] at ih
          rw [map_some, getD_some, lookup_cons_some, lookup_cons_some, ih]
          by_cases h : n = k
          · rw [if_pos h, if_pos h, if_neg (h ▸ hk)]
          · rw [if_neg h, if_neg h]

theorem getprop_setprop (node : FdtNode) (name n : CString) (value : List UInt8) :
    (setprop name value node).getprop n = if n = name then some value else node.getprop n := by
  cases node with
  | mk nm props subs => exact lookup_resizeProps name value props n

/-! ## The subnode of a name -/

/-- Subnodes followed by others. -/
def append : FdtSubs → FdtSubs → FdtSubs
  | .nil, other => other
  | .nop rest, other => .nop (append rest other)
  | .cons node rest, other => .cons node (append rest other)

theorem append_nil : (subs : FdtSubs) → append subs .nil = subs
  | .nil => rfl
  | .nop rest => by rw [append, append_nil rest]
  | .cons node rest => by rw [append, append_nil rest]

theorem flatten_append : (subs other : FdtSubs) → (append subs other).flatten = subs.flatten ++ other.flatten
  | .nil, other => rfl
  | .nop rest, other => by simp [append, FdtSubs.flatten, flatten_append rest other]
  | .cons node rest, other => by simp [append, FdtSubs.flatten, flatten_append rest other]

theorem count_append : (subs other : FdtSubs) → (append subs other).count = subs.count + other.count
  | .nil, other => by simp [append, FdtSubs.count]
  | .nop rest, other => by simp [append, FdtSubs.count, count_append rest other]
  | .cons node rest, other => by simp [append, FdtSubs.count, count_append rest other, Nat.add_assoc]

theorem count_le_of_mem_children {node : FdtNode} : (subs : FdtSubs) → node ∈ subs.children → node.count ≤ subs.count
  | .nil, h => by simp [FdtSubs.children] at h
  | .nop rest, h => count_le_of_mem_children rest h
  | .cons n rest, h => by
    rw [FdtSubs.count]
    rcases mem_cons.mp h with rfl | h
    · omega
    · have := count_le_of_mem_children rest h
      omega

theorem first_child (p : FdtNode → Prop) : (subs : FdtSubs) → (∀ n ∈ subs.children, ¬ p n) ∨
    ∃ before node rest, subs = append before (.cons node rest) ∧ (∀ n ∈ before.children, ¬ p n) ∧ p node
  | .nil => Or.inl (by simp [FdtSubs.children])
  | .nop rest => by
    rcases first_child p rest with h | ⟨before, node, rest', rfl, hbefore, hnode⟩
    · exact Or.inl h
    · exact Or.inr ⟨.nop before, node, rest', rfl, hbefore, hnode⟩
  | .cons n rest => by
    by_cases hn : p n
    · exact Or.inr ⟨.nil, n, rest, rfl, by simp [FdtSubs.children], hn⟩
    · rcases first_child p rest with h | ⟨before, node, rest', rfl, hbefore, hnode⟩
      · exact Or.inl (by simpa [FdtSubs.children, hn] using h)
      · exact Or.inr ⟨.cons n before, node, rest', rfl, by simpa [FdtSubs.children, hn] using hbefore, hnode⟩

section

variable {fdt : Fdt} {name : List UInt8}

theorem fdtSubnodeOffsetLoop_passes {n : Nat} {st st' : Option Nat × Int} (h : Passes fdt 1 n st st') (fuel : Nat) :
    fdtSubnodeOffsetLoop fdt name (fuel + n) st = fdtSubnodeOffsetLoop fdt name fuel st' := by
  induction h with
  | done st => rfl
  | step hlt _ ih =>
    rw [← Nat.add_assoc, fdtSubnodeOffsetLoop, if_pos (by omega), if_neg (by omega), ih]

/-- The search passes the subnodes of other names. -/
theorem fdtSubnodeOffsetLoop_subs : (subs : FdtSubs) → (∀ n ∈ subs.children, ¬ fdtNodenameEq n.name name) → ∀ (fuel : Nat) (pre post : Fdt),
    fdt = pre ++ subs.flatten ++ post → fdtSubnodeOffsetLoop fdt name (fuel + subs.count) (fdtNextNodeLoop (subs.flatten ++ post) pre.length 0) =
        fdtSubnodeOffsetLoop fdt name fuel (fdtNextNodeLoop post (pre.length + subs.flatten.length) 0)
  | .nil, _, fuel, pre, post, hfdt => rfl
  | .nop rest, hother, fuel, pre, post, hfdt => by
    have hrest := fdtSubnodeOffsetLoop_subs rest hother fuel (pre ++ [.nop]) post (by rw [hfdt, FdtSubs.flatten]; simp)
    rw [length_append, length_singleton, Nat.add_assoc pre.length, Nat.add_comm 1] at hrest
    rw [FdtSubs.flatten, cons_append, length_cons]
    exact hrest
  | .cons node rest, hother, fuel, pre, post, hfdt => by
    have hnode : fdt = pre ++ node.flatten ++ (rest.flatten ++ post) := by
      rw [hfdt, FdtSubs.flatten]
      simp
    have hname : fdtGetName fdt pre.length = some node.name := by
      rw [hnode]
      exact fdtGetName_node pre _ node
    have hne := hother node (mem_cons_self ..)
    have hrest := fdtSubnodeOffsetLoop_subs rest (fun n hn => hother n (mem_cons_of_mem _ hn)) fuel (pre ++ node.flatten) post
      (by rw [hfdt, FdtSubs.flatten]; simp)
    rw [length_append] at hrest
    rw [fdtNextNodeLoop_cons, Int.zero_add, count_cons, FdtSubs.flatten, length_append, ← Nat.add_assoc, ← Nat.add_assoc,
      ← Nat.add_assoc, fdtSubnodeOffsetLoop,
      if_pos (by decide), if_neg (by simpa [hname] using hne),
      fdtSubnodeOffsetLoop_passes (passes_node node fdt pre _ 1 (by decide) hnode)]
    exact hrest

end
variable {fuel : Nat}


theorem fdtPathOffset_append (root : CString) (props : List (Option (CString × List UInt8))) (before other : FdtSubs) (name : List UInt8)
    (hother : ∀ n ∈ before.children, ¬ fdtNodenameEq n.name name) (fuel : Nat) :
    fdtPathOffset (fuel + before.count + 1) (FdtNode.mk root props (append before other)).flatten name =
      fdtSubnodeOffsetLoop (FdtNode.mk root props (append before other)).flatten name fuel
        (fdtNextNodeLoop (other.flatten ++ [.endNode]) (FdtTag.beginNode root :: (props.map propTag ++ before.flatten)).length 0) := by
  have hnext := fdtNextNode_node [] [] root props (append before other) 0
  have hfdt : (FdtNode.mk root props (append before other)).flatten =
      (.beginNode root :: props.map propTag) ++ before.flatten ++ (other.flatten ++ [.endNode]) := by
    simp [FdtNode.flatten, flatten_append]
  have hpass := fdtSubnodeOffsetLoop_subs before hother fuel _ _ hfdt
  have hstart : (FdtTag.beginNode root :: props.map propTag).length = 0 + 1 + props.length := by
    simp
    omega
  have hend : (FdtTag.beginNode root :: (props.map propTag ++ before.flatten)).length = 0 + 1 + props.length + before.flatten.length := by
    simp
    omega
  rw [List.nil_append, List.append_nil, flatten_append, List.append_assoc] at hnext
  rw [hstart] at hpass
  rw [hend, ← hpass, fdtPathOffset, fdtSubnodeOffset, fdtSubnodeOffsetLoop, if_pos (by decide), if_neg (by simp)]
  exact congrArg _ hnext

theorem fdtPathOffset_none (root : CString) (props : List (Option (CString × List UInt8))) (subs : FdtSubs) (name : List UInt8)
    (hother : ∀ n ∈ subs.children, ¬ fdtNodenameEq n.name name) (hfuel : subs.count + 1 < fuel) :
    fdtPathOffset fuel (FdtNode.mk root props subs).flatten name = some none := by
  obtain ⟨k, rfl⟩ : ∃ k, fuel = k + 1 + subs.count + 1 := ⟨fuel - subs.count - 2, by omega⟩
  have h := fdtPathOffset_append root props subs .nil name hother (k + 1)
  rw [append_nil] at h
  exact h

theorem fdtPathOffset_some (root : CString) (props : List (Option (CString × List UInt8))) (before rest : FdtSubs) (node : FdtNode)
    (name : List UInt8) (hother : ∀ n ∈ before.children, ¬ fdtNodenameEq n.name name) (hname : fdtNodenameEq node.name name)
    (hfuel : before.count + 1 < fuel) :
    fdtPathOffset fuel (FdtNode.mk root props (append before (.cons node rest))).flatten name =
      some (some (FdtTag.beginNode root :: (props.map propTag ++ before.flatten)).length) := by
  obtain ⟨k, rfl⟩ : ∃ k, fuel = k + 1 + before.count + 1 := ⟨fuel - before.count - 2, by omega⟩
  have hfdt : (FdtNode.mk root props (append before (.cons node rest))).flatten =
      .beginNode root :: (props.map propTag ++ before.flatten) ++ node.flatten ++ (rest.flatten ++ [.endNode]) := by
    simp [FdtNode.flatten, flatten_append, FdtSubs.flatten]
  rw [fdtPathOffset_append root props before _ name hother, fdtNextNodeLoop_cons, Int.zero_add, fdtSubnodeOffsetLoop, if_pos (by decide), if_pos]
  refine ⟨rfl, ?_⟩
  rw [hfdt, fdtGetName_node]
  exact hname

end FdtWalk

end UBoot
