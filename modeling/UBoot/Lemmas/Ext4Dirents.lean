import UBoot.Ext4Dir

/-!
# Blocks that are tiled by directory entries

A block of a directory is the bytes of its entries, one behind the other (`Tiles`). What the code reads and writes of an entry is said for
the place where it stands.
-/

namespace UBoot

open List Option

namespace Ext4Dirents

open Lib

/-- The bytes of an entry with a length. -/
def dirent (inode len : Nat) (filetype : UInt8) (name slack : List UInt8) : List UInt8 :=
  leBytes 4 inode ++ (leBytes 2 len ++ ([UInt8.ofNat name.length, filetype] ++ (name ++ slack)))

/-- An entry, and the bytes behind its name that are not used. There is no inode 2 ^ 32 - 1. -/
structure ExtDirent where
  inode : Nat
  filetype : UInt8
  name : List UInt8
  slack : List UInt8
  inode_lt : inode < 2 ^ 32 - 1
  name_lt : name.length < 256
  len_lt : EXT2_DIRENT_SIZE + name.length + slack.length < 2 ^ 16

/-- `direntlen` -/
def ExtDirent.len (e : ExtDirent) : Nat := EXT2_DIRENT_SIZE + e.name.length + e.slack.length

def ExtDirent.bytes (e : ExtDirent) : List UInt8 := dirent e.inode e.len e.filetype e.name e.slack

/-- What an entry that is used says. -/
def ExtDirent.said (e : ExtDirent) : Nat × UInt8 × List UInt8 := (e.inode, e.filetype, e.name)

/-- The bytes of some entries. -/
def area (es : List ExtDirent) : List UInt8 := es.flatMap ExtDirent.bytes

/-- The entries that are used. -/
def live (es : List ExtDirent) : List (Nat × UInt8 × List UInt8) := (es.filter fun e => e.inode ≠ 0).map ExtDirent.said

/-- The entries fill a block. -/
structure Tiles (blksz : Nat) (buffer : List UInt8) (es : List ExtDirent) : Prop where
  length : buffer.length = blksz
  bytes : buffer = area es

variable {blksz inode len dir m : Nat} {filetype : UInt8} {name slack a b buffer : List UInt8} {e q : ExtDirent}
  {es pre mid post : List ExtDirent} {filename : CString}

theorem length_dirent (inode len : Nat) (filetype : UInt8) (name slack : List UInt8) :
    (dirent inode len filetype name slack).length = EXT2_DIRENT_SIZE + name.length + slack.length := by
  simp only [dirent, length_append, length_leBytes, length_cons, length_nil, EXT2_DIRENT_SIZE]
  omega

@[simp]
theorem ExtDirent.length_bytes (e : ExtDirent) : e.bytes.length = e.len := length_dirent ..

theorem ExtDirent.len_mod (e : ExtDirent) : e.len % 2 ^ 16 = e.len := Nat.mod_eq_of_lt e.len_lt

theorem ExtDirent.le_len (e : ExtDirent) : EXT2_DIRENT_SIZE + e.name.length ≤ e.len := Nat.le_add_right ..

theorem area_append (xs ys : List ExtDirent) : area (xs ++ ys) = area xs ++ area ys := flatMap_append

theorem area_cons (e : ExtDirent) (es : List ExtDirent) : area (e :: es) = e.bytes ++ area es := flatMap_cons

theorem live_append (xs ys : List ExtDirent) : live (xs ++ ys) = live xs ++ live ys := by
  rw [live, filter_append, map_append]
  rfl

theorem live_cons (e : ExtDirent) (es : List ExtDirent) : live (e :: es) = if e.inode ≠ 0 then e.said :: live es else live es := by
  by_cases h : e.inode ≠ 0
  · rw [if_pos h, live, filter_cons_of_pos (by simpa using h)]
    rfl
  · rw [if_neg h, live, filter_cons_of_neg (by simpa using h)]
    rfl

/-! ## Fields of an entry -/

theorem direntInode_eq (h : inode < 2 ^ 32) : direntInode (a ++ (dirent inode len filetype name slack ++ b)) a.length = some inode := by
  rw [direntInode, readAt_eq (x := leBytes 4 inode) (by rw [dirent, append_assoc]) rfl (length_leBytes ..).symm, map_some, leVal_leBytes_of_lt h]

theorem direntlen_eq : direntlen (a ++ (dirent inode len filetype name slack ++ b)) a.length = some (len % 2 ^ 16) := by
  have hplace : a ++ (dirent inode len filetype name slack ++ b) =
      a ++ leBytes 4 inode ++ (leBytes 2 len ++ ([UInt8.ofNat name.length, filetype] ++ (name ++ (slack ++ b)))) := by
    simp only [dirent, append_assoc]
  rw [direntlen, readAt_eq hplace (by rw [length_append, length_leBytes]) (length_leBytes ..).symm, map_some, leVal_leBytes,
    show 256 ^ 2 = 2 ^ 16 from rfl]

theorem direntNamelen_eq (h : name.length < 256) :
    direntNamelen (a ++ (dirent inode len filetype name slack ++ b)) a.length = some name.length := by
  have hplace : a ++ (dirent inode len filetype name slack ++ b) =
      a ++ leBytes 4 inode ++ leBytes 2 len ++ ([UInt8.ofNat name.length] ++ (filetype :: (name ++ (slack ++ b)))) := by
    simp only [dirent, append_assoc, cons_append, nil_append]
  have hread := readAt_eq (i := a.length + 6) (n := 1) hplace (by simp only [length_append, length_leBytes]) rfl
  rw [direntNamelen, hread, map_some, leVal, leVal, UInt8.toNat_ofNat_of_lt' h]
  rfl

theorem setDirentlen_eq : setDirentlen (a ++ (dirent inode len filetype name slack ++ b)) a.length m =
    some (a ++ (dirent inode m filetype name slack ++ b)) := by
  rw [setDirentlen, writeAt_eq (a := a ++ leBytes 4 inode) (x := leBytes 2 len) (by simp only [dirent, append_assoc]; rfl)
    (by rw [length_append, length_leBytes]) (by rw [length_leBytes, length_leBytes])]
  simp only [dirent, append_assoc]

theorem setInode_eq (n : Nat) : writeAt (a ++ (dirent inode len filetype name slack ++ b)) a.length (leBytes 4 n) =
    some (a ++ (dirent n len filetype name slack ++ b)) := by
  rw [writeAt_eq (x := leBytes 4 inode) (by rw [dirent, append_assoc]) rfl (by rw [length_leBytes, length_leBytes])]
  simp only [dirent, append_assoc]

theorem nameIs_eq {n f : List UInt8} (h : n.length = f.length) (a b : List UInt8) :
    nameIs (a ++ (n ++ b)) a.length f = some (decide (n = f)) := by
  induction f generalizing a n with
  | nil =>
    obtain rfl : n = [] := eq_nil_of_length_eq_zero h
    rfl
  | cons c f ih =>
    cases n with
    | nil => cases h
    | cons x n =>
      have hget : (a ++ (x :: n ++ b))[a.length]? = some x := by
        rw [getElem?_append_right (Nat.le_refl _), Nat.sub_self]
        rfl
      have hrest := ih (Nat.succ.inj h) (a ++ [x])
      rw [append_assoc, length_append] at hrest
      rw [nameIs, hget]
      simp only
      by_cases hx : x = c
      · rw [if_pos hx]
        refine hrest.trans (congrArg some ?_)
        simp [hx]
      · rw [if_neg hx]
        simp [hx]

theorem direntIs_eq (h : name.length < 256) :
    direntIs filename (a ++ (dirent inode len filetype name slack ++ b)) a.length = some (decide (name = filename.bytes)) := by
  rw [direntIs, direntNamelen_eq h]
  simp only
  by_cases hlen : filename.bytes.length = name.length
  · rw [if_pos hlen]
    have hname := nameIs_eq hlen.symm (a ++ (leBytes 4 inode ++ (leBytes 2 len ++ [UInt8.ofNat name.length, filetype]))) (slack ++ b)
    simp only [length_append, length_leBytes, length_cons, length_nil, append_assoc] at hname
    simp only [dirent, append_assoc]
    exact hname
  · rw [if_neg hlen, decide_eq_false fun heq => hlen (congrArg List.length heq.symm)]

theorem area_split (pre : List ExtDirent) (e : ExtDirent) (post : List ExtDirent) :
    area (pre ++ e :: post) = area pre ++ (e.bytes ++ area post) := by rw [area_append, area_cons]

theorem Tiles.direntlen_eq (h : Tiles blksz buffer (pre ++ e :: post)) : direntlen buffer (area pre).length = some e.len := by
  rw [h.bytes, area_split, ExtDirent.bytes, Ext4Dirents.direntlen_eq, e.len_mod]

theorem Tiles.direntNamelen_eq (h : Tiles blksz buffer (pre ++ e :: post)) : direntNamelen buffer (area pre).length = some e.name.length := by
  rw [h.bytes, area_split, ExtDirent.bytes, Ext4Dirents.direntNamelen_eq e.name_lt]

theorem Tiles.direntIs_eq (h : Tiles blksz buffer (pre ++ e :: post)) :
    direntIs filename buffer (area pre).length = some (decide (e.name = filename.bytes)) := by
  rw [h.bytes, area_split, ExtDirent.bytes, Ext4Dirents.direntIs_eq e.name_lt]

theorem Tiles.split_length (h : Tiles blksz buffer (pre ++ e :: post)) : (area pre).length + e.len + (area post).length = blksz := by
  rw [← h.length, h.bytes, area_split, length_append, length_append, ExtDirent.length_bytes, Nat.add_assoc]

theorem area_pos (e : ExtDirent) (post : List ExtDirent) : EXT2_DIRENT_SIZE ≤ (area (e :: post)).length := by
  have hlen := e.le_len
  rw [area_cons, length_append, ExtDirent.length_bytes]
  omega

theorem Tiles.ne_blksz {x : ExtDirent} (h : Tiles blksz buffer (pre ++ x :: (mid ++ e :: post))) : (area pre).length + x.len ≠ blksz := by
  have hsplit := h.split_length
  have hpos := area_pos e post
  rw [area_append, length_append] at hsplit
  simp only [EXT2_DIRENT_SIZE] at hpos
  omega

theorem length_area_concat (x : ExtDirent) : (area pre).length + x.len = (area (pre ++ [x])).length := by
  rw [area_append, area_cons, length_append, length_append, ExtDirent.length_bytes]
  rfl

theorem Tiles.length_le (h : Tiles blksz buffer es) : es.length ≤ buffer.length := by
  rw [h.bytes]
  clear h
  induction es with
  | nil => exact Nat.zero_le _
  | cons e es ih =>
    have hle := e.le_len
    rw [area_cons, length_append, ExtDirent.length_bytes, length_cons]
    simp only [EXT2_DIRENT_SIZE] at hle
    omega

theorem Tiles.exists_cons (h : Tiles blksz buffer es) (hblksz : 0 < blksz) : ∃ e post, es = e :: post := by
  cases es with
  | nil =>
    have hlen := h.length
    rw [h.bytes] at hlen
    exact absurd hblksz (Nat.not_lt.2 (Nat.le_of_eq hlen.symm))
  | cons e post => exact ⟨e, post, rfl⟩

/-! ## Blocks that are not tiled, and the only tiling of a block -/

theorem not_tiles_of_len {a : List UInt8} (h0 : direntlen a 0 = some 0) (hblksz : 0 < blksz) (es : List ExtDirent) : ¬ Tiles blksz a es := by
  intro h
  obtain ⟨e, post, rfl⟩ := h.exists_cons hblksz
  have hlen := @Tiles.direntlen_eq blksz a e [] post h
  have hle := e.le_len
  rw [show (area []).length = 0 from rfl, h0, some.injEq] at hlen
  simp only [EXT2_DIRENT_SIZE] at hle
  omega

theorem bytes_inj {e e' : ExtDirent} {r r' : List UInt8} (h : e.bytes ++ r = e'.bytes ++ r') : e = e' ∧ r = r' := by
  have hlen : e.len = e'.len := by
    have h1 := @Ext4Dirents.direntlen_eq e.inode e.len e.filetype e.name e.slack [] r
    have h2 := @Ext4Dirents.direntlen_eq e'.inode e'.len e'.filetype e'.name e'.slack [] r'
    rw [nil_append] at h1 h2
    have heq : dirent e.inode e.len e.filetype e.name e.slack ++ r = dirent e'.inode e'.len e'.filetype e'.name e'.slack ++ r' := h
    rw [heq, h2, some.injEq, e.len_mod, e'.len_mod] at h1
    exact h1.symm
  obtain ⟨hbytes, hrest⟩ := append_inj h (by rw [ExtDirent.length_bytes, ExtDirent.length_bytes, hlen])
  refine ⟨?_, hrest⟩
  obtain ⟨hinode, hbytes⟩ := append_inj hbytes (by rw [length_leBytes, length_leBytes])
  obtain ⟨-, hbytes⟩ := append_inj hbytes (by rw [length_leBytes, length_leBytes])
  obtain ⟨hhead, hbytes⟩ := append_inj hbytes rfl
  simp only [List.cons.injEq, and_true] at hhead
  have hname : e.name.length = e'.name.length := by
    have := congrArg UInt8.toNat hhead.1
    rwa [UInt8.toNat_ofNat_of_lt' e.name_lt, UInt8.toNat_ofNat_of_lt' e'.name_lt] at this
  obtain ⟨hnames, hslack⟩ := append_inj hbytes hname
  have hino : e.inode = e'.inode := by
    have := congrArg leVal hinode
    rwa [leVal_leBytes_of_lt (Nat.lt_trans e.inode_lt (by decide)), leVal_leBytes_of_lt (Nat.lt_trans e'.inode_lt (by decide))] at this
  cases e
  cases e'
  simp only [ExtDirent.mk.injEq]
  exact ⟨hino, hhead.2, hnames, hslack⟩

theorem Tiles.unique {es es' : List ExtDirent} (h : Tiles blksz buffer es) (h' : Tiles blksz buffer es') : es = es' := by
  have harea : area es = area es' := h.bytes.symm.trans h'.bytes
  clear h h'
  induction es generalizing es' with
  | nil =>
    cases es' with
    | nil => rfl
    | cons e' es' =>
      have hpos := area_pos e' es'
      rw [← harea] at hpos
      exact absurd hpos (by decide)
  | cons e es ih =>
    cases es' with
    | nil =>
      have hpos := area_pos e es
      rw [harea] at hpos
      exact absurd hpos (by decide)
    | cons e' es' =>
      rw [area_cons, area_cons] at harea
      obtain ⟨rfl, hrest⟩ := bytes_inj harea
      rw [ih hrest]

/-! ## An entry is looked for -/

/-- `previous_dir` is the last of the entries that were passed. -/
def Previous (pre : List ExtDirent) : Option Nat → Prop
  | none => pre = []
  | some previousDir => ∃ a q, pre = a ++ [q] ∧ previousDir = (area a).length

/-- Entries with other names are passed over. -/
theorem findDentry_pass (pre mid : List ExtDirent) {post : List ExtDirent} {previousDir : Option Nat}
    (h : Tiles blksz buffer (pre ++ (mid ++ e :: post))) (hmid : ∀ x ∈ mid, x.name ≠ filename.bytes) (hprev : Previous pre previousDir) :
    ∃ previousDir', Previous (pre ++ mid) previousDir' ∧ ∀ fuel, findDentry filename blksz buffer (fuel + mid.length) previousDir
      (area pre).length = findDentry filename blksz buffer fuel previousDir' (area (pre ++ mid)).length := by
  induction mid generalizing pre previousDir with
  | nil => exact ⟨previousDir, by rwa [append_nil], fun fuel => by rw [append_nil]; rfl⟩
  | cons x mid ih =>
    have h' : Tiles blksz buffer (pre ++ [x] ++ (mid ++ e :: post)) := by rwa [append_assoc]
    obtain ⟨previousDir', hprev', hpass⟩ := ih (pre ++ [x]) h' (fun y hy => hmid y (mem_cons_of_mem x hy))
      (show Previous (pre ++ [x]) (some (area pre).length) from ⟨pre, x, rfl, rfl⟩)
    rw [append_assoc, singleton_append] at hprev' hpass
    refine ⟨previousDir', hprev', fun fuel => ?_⟩
    have hx : Tiles blksz buffer (pre ++ x :: (mid ++ e :: post)) := h
    rw [length_cons, ← Nat.add_assoc, findDentry, hx.direntIs_eq, decide_eq_false (hmid x (mem_cons_self ..)), hx.direntlen_eq]
    simp only [hx.ne_blksz, if_false]
    rw [length_area_concat]
    exact hpass fuel

theorem findDentry_none (h : Tiles blksz buffer es) (hblksz : 0 < blksz) (hes : ∀ x ∈ es, x.name ≠ filename.bytes) {fuel : Nat}
    (hfuel : es.length ≤ fuel) : findDentry filename blksz buffer fuel none 0 = some none := by
  obtain ⟨e, post, rfl⟩ := h.exists_cons hblksz
  obtain ⟨mid, l, hsplit⟩ : ∃ mid l, e :: post = mid ++ [l] := ⟨_, _, (dropLast_append_getLast (cons_ne_nil e post)).symm⟩
  rw [hsplit] at h hes hfuel
  obtain ⟨previousDir, -, hpass⟩ := findDentry_pass [] mid h (fun x hx => hes x (mem_append_left _ hx)) (show Previous [] none from rfl)
  have hl : Tiles blksz buffer (mid ++ l :: []) := h
  rw [length_append, length_singleton] at hfuel
  obtain ⟨k, rfl⟩ := Nat.exists_eq_add_of_le hfuel
  have hstart := hpass (k + 1)
  rw [show k + 1 + mid.length = mid.length + 1 + k by omega] at hstart
  rw [show (0 : Nat) = (area []).length from rfl, hstart, nil_append, findDentry, hl.direntIs_eq,
    decide_eq_false (hes l (mem_append_right _ (mem_singleton_self l))), hl.direntlen_eq]
  exact if_pos hl.split_length

theorem findDentry_some (h : Tiles blksz buffer (mid ++ e :: post)) (hmid : ∀ x ∈ mid, x.name ≠ filename.bytes)
    (he : e.name = filename.bytes) {fuel : Nat} (hfuel : (mid ++ e :: post).length ≤ fuel) :
    ∃ previousDir, Previous mid previousDir ∧ findDentry filename blksz buffer fuel none 0 =
      (unlinkDentry buffer previousDir (area mid).length).map some := by
  obtain ⟨previousDir, hprev, hpass⟩ := findDentry_pass [] mid h hmid (show Previous [] none from rfl)
  refine ⟨previousDir, hprev, ?_⟩
  rw [length_append, length_cons] at hfuel
  obtain ⟨k, rfl⟩ := Nat.exists_eq_add_of_le hfuel
  have hstart := hpass (post.length + k + 1)
  rw [show post.length + k + 1 + mid.length = mid.length + (post.length + 1) + k by omega] at hstart
  rw [show (0 : Nat) = (area []).length from rfl, hstart, nil_append, findDentry, h.direntIs_eq, decide_eq_true he]

/-- An entry with the one behind it as bytes that are not used. -/
def ExtDirent.join (q e : ExtDirent) (hlen : q.len + e.len < 2 ^ 16) : ExtDirent :=
  { q with
    slack := q.slack ++ dirent 0 e.len e.filetype e.name e.slack
    len_lt := by
      rw [length_append, length_dirent]
      simp only [ExtDirent.len] at hlen
      omega }

theorem ExtDirent.len_join (q e : ExtDirent) (hlen : q.len + e.len < 2 ^ 16) : (q.join e hlen).len = q.len + e.len := by
  simp only [ExtDirent.join, ExtDirent.len, length_append, length_dirent]
  omega

theorem unlinkDentry_eq (h : Tiles blksz buffer (pre ++ q :: e :: post)) :
    unlinkDentry buffer (some (area pre).length) (area (pre ++ [q])).length = some (e.inode,
      area pre ++ (dirent q.inode (q.len + e.len) q.filetype q.name q.slack ++ (dirent 0 e.len e.filetype e.name e.slack ++ area post))) := by
  have he : Tiles blksz buffer (pre ++ [q] ++ e :: post) := by rwa [append_assoc]
  simp only [unlinkDentry, bind_eq_bind, bind_some, h.direntlen_eq, he.direntlen_eq]
  rw [h.bytes, area_split, area_cons, ExtDirent.bytes, setDirentlen_eq]
  simp only [bind_some]
  have hplace : (area (pre ++ [q])).length = (area pre ++ dirent q.inode (q.len + e.len) q.filetype q.name q.slack).length := by
    rw [area_append, length_append, length_append, length_dirent, area_cons, length_append, ExtDirent.length_bytes]
    rfl
  rw [hplace, ← append_assoc, ExtDirent.bytes, direntInode_eq (Nat.lt_trans e.inode_lt (by decide))]
  simp only [bind_some]
  rw [setInode_eq, append_assoc]
  rfl

theorem Tiles.unlink (h : Tiles blksz buffer (pre ++ q :: e :: post)) (hlen : q.len + e.len < 2 ^ 16) :
    ∃ buffer', unlinkDentry buffer (some (area pre).length) (area (pre ++ [q])).length = some (e.inode, buffer') ∧
      Tiles blksz buffer' (pre ++ q.join e hlen :: post) := by
  refine ⟨_, unlinkDentry_eq h, ?_, ?_⟩
  · have hsplit := h.split_length
    rw [area_cons, length_append, ExtDirent.length_bytes] at hsplit
    simp only [length_append, length_dirent]
    simp only [ExtDirent.len] at hsplit
    omega
  · rw [area_split, ExtDirent.bytes, ExtDirent.len_join]
    simp only [dirent, ExtDirent.join, append_assoc]

/-! ## An entry is made -/

theorem direntBytes_le (n : Nat) : n + EXT2_DIRENT_SIZE ≤ direntBytes n ∧ direntBytes n < n + EXT2_DIRENT_SIZE + 4 := by
  unfold direntBytes
  split <;> omega

/-- Behind the name of an entry there is room for one with the new name. -/
def Room (filename : CString) (e : ExtDirent) : Prop := direntBytes e.name.length + direntBytes filename.bytes.length ≤ e.len

instance (filename : CString) (e : ExtDirent) : Decidable (Room filename e) := inferInstanceAs (Decidable (_ ≤ _))

/-- An entry without the bytes that it does not need. -/
def ExtDirent.shorten (e : ExtDirent) : ExtDirent :=
  { e with
    slack := e.slack.take (direntBytes e.name.length - (EXT2_DIRENT_SIZE + e.name.length))
    len_lt := by
      have := e.len_lt
      rw [length_take]
      omega }

/-- The bytes that an entry does not need. -/
def ExtDirent.void (e : ExtDirent) : List UInt8 := e.slack.drop (direntBytes e.name.length - (EXT2_DIRENT_SIZE + e.name.length))

theorem ExtDirent.len_shorten (h : direntBytes e.name.length ≤ e.len) : e.shorten.len = direntBytes e.name.length := by
  have hle := direntBytes_le e.name.length
  simp only [ExtDirent.len] at h
  simp only [ExtDirent.shorten, ExtDirent.len, length_take]
  omega

theorem ExtDirent.length_void (h : direntBytes e.name.length ≤ e.len) : e.void.length = e.len - direntBytes e.name.length := by
  have hle := direntBytes_le e.name.length
  simp only [ExtDirent.len] at h
  simp only [ExtDirent.void, ExtDirent.len, length_drop]
  omega

theorem ExtDirent.cut (h : direntBytes e.name.length ≤ e.len) :
    dirent e.inode (direntBytes e.name.length) e.filetype e.name e.slack = e.shorten.bytes ++ e.void := by
  rw [ExtDirent.bytes, ExtDirent.len_shorten h]
  simp only [dirent, ExtDirent.shorten, ExtDirent.void, append_assoc, take_append_drop]

theorem checkVoidInDentry_eq (h : Tiles blksz buffer (pre ++ e :: post)) : checkVoidInDentry filename buffer (area pre).length =
    if Room filename e then some (e.void.length, area pre ++ (e.shorten.bytes ++ (e.void ++ area post))) else some (0, buffer) := by
  have hnew := (direntBytes_le filename.bytes.length).1
  simp only [checkVoidInDentry, bind_eq_bind, h.direntNamelen_eq, h.direntlen_eq, bind_some]
  simp only [EXT2_DIRENT_SIZE] at hnew
  by_cases hroom : Room filename e
  · have hle : direntBytes e.name.length ≤ e.len := Nat.le_trans (Nat.le_add_right ..) hroom
    have hset : setDirentlen buffer (area pre).length (direntBytes e.name.length) =
        some (area pre ++ (e.shorten.bytes ++ (e.void ++ area post))) := by
      rw [h.bytes, area_split, ExtDirent.bytes, setDirentlen_eq, ExtDirent.cut hle, append_assoc]
    rw [if_pos hroom]
    unfold Room at hroom
    rw [if_neg (by omega), if_pos (by omega), hset, bind_some, ExtDirent.length_void hle]
    exact congrArg some (Prod.ext (by simp only; omega) rfl)
  · rw [if_neg hroom]
    unfold Room at hroom
    split
    · rfl
    · rw [if_neg (by omega)]

/-- Entries without room are passed over. -/
theorem findVoid_pass (pre mid : List ExtDirent) {post : List ExtDirent} (h : Tiles blksz buffer (pre ++ (mid ++ e :: post)))
    (hmid : ∀ x ∈ mid, ¬ Room filename x) (fuel : Nat) : findVoid filename blksz buffer (fuel + mid.length) (area pre).length =
      findVoid filename blksz buffer fuel (area (pre ++ mid)).length := by
  induction mid generalizing pre with
  | nil => rw [append_nil]; rfl
  | cons x mid ih =>
    have h' : Tiles blksz buffer (pre ++ [x] ++ (mid ++ e :: post)) := by rwa [append_assoc]
    have hrest := ih (pre ++ [x]) h' fun y hy => hmid y (mem_cons_of_mem x hy)
    have hx : Tiles blksz buffer (pre ++ x :: (mid ++ e :: post)) := h
    have hpos := x.le_len
    have hne : x.len ≠ 0 := by
      simp only [EXT2_DIRENT_SIZE] at hpos
      omega
    rw [length_cons, ← Nat.add_assoc, findVoid, hx.direntlen_eq]
    simp only [hne, hx.ne_blksz, if_false]
    rw [checkVoidInDentry_eq hx, if_neg (hmid x (mem_cons_self ..))]
    simp only [ne_eq, not_true_eq_false, if_false]
    rw [length_area_concat, hrest, append_assoc, singleton_append]

/-- An entry before the last one has room. -/
theorem findVoid_room (h : Tiles blksz buffer (mid ++ e :: post)) (hpost : post ≠ []) (hmid : ∀ x ∈ mid, ¬ Room filename x)
    (he : Room filename e) {fuel : Nat} (hfuel : (mid ++ e :: post).length ≤ fuel) : findVoid filename blksz buffer fuel 0 =
      some (some ((area mid).length, e.void.length, area mid ++ (e.shorten.bytes ++ (e.void ++ area post)))) := by
  have hpos := e.le_len
  simp only [EXT2_DIRENT_SIZE] at hpos
  have hne : e.len ≠ 0 := by omega
  have hnot : (area mid).length + e.len ≠ blksz := by
    obtain ⟨x, post, rfl⟩ := exists_cons_of_ne_nil hpost
    have hnext : Tiles blksz buffer (mid ++ e :: ([] ++ x :: post)) := h
    exact hnext.ne_blksz
  have hvoid : e.void.length ≠ 0 := by
    have hnew := (direntBytes_le filename.bytes.length).1
    rw [ExtDirent.length_void (Nat.le_trans (Nat.le_add_right ..) he)]
    unfold Room at he
    simp only [EXT2_DIRENT_SIZE] at hnew
    omega
  rw [length_append, length_cons] at hfuel
  obtain ⟨k, rfl⟩ := Nat.exists_eq_add_of_le hfuel
  have hstart := findVoid_pass [] mid h hmid (post.length + k + 1)
  rw [show post.length + k + 1 + mid.length = mid.length + (post.length + 1) + k by omega] at hstart
  rw [show (0 : Nat) = (area []).length from rfl, hstart, nil_append, findVoid, h.direntlen_eq]
  simp only [hne, hnot, if_false]
  rw [checkVoidInDentry_eq h, if_pos he]
  simp only [hvoid, ne_eq, not_false_eq_true, if_true]

theorem findVoid_last (h : Tiles blksz buffer (mid ++ [e])) (hmid : ∀ x ∈ mid, ¬ Room filename x) {fuel : Nat}
    (hfuel : (mid ++ [e]).length ≤ fuel) : findVoid filename blksz buffer fuel 0 =
      if (2 ^ 32 + e.len - direntBytes e.name.length) % 2 ^ 32 < direntBytes filename.bytes.length then some none
      else some (some ((area mid).length, 0, area mid ++ dirent e.inode (direntBytes e.name.length) e.filetype e.name e.slack)) := by
  have hpos := e.le_len
  simp only [EXT2_DIRENT_SIZE] at hpos
  have hne : e.len ≠ 0 := by omega
  have hend : (area mid).length + e.len = blksz := h.split_length
  rw [length_append, length_singleton] at hfuel
  obtain ⟨k, rfl⟩ := Nat.exists_eq_add_of_le hfuel
  have hstart := findVoid_pass [] mid h hmid (k + 1)
  rw [show k + 1 + mid.length = mid.length + 1 + k by omega] at hstart
  have hset : setDirentlen buffer (area mid).length (direntBytes e.name.length) =
      some (area mid ++ dirent e.inode (direntBytes e.name.length) e.filetype e.name e.slack) := by
    rw [h.bytes, area_split, ExtDirent.bytes, setDirentlen_eq, show area [] = [] from rfl, append_nil]
  rw [show (0 : Nat) = (area []).length from rfl, hstart, nil_append, findVoid, h.direntlen_eq]
  simp only [hne, hend, if_false, if_true, h.direntNamelen_eq, hset, map_some]
  rfl

theorem exists_split {n : Nat} {v : List UInt8} (h : n ≤ v.length) : ∃ v₁ v₂, v = v₁ ++ v₂ ∧ v₁.length = n :=
  ⟨_, _, (take_append_drop n v).symm, length_take_of_le h⟩

/-- A new entry in place of some bytes. -/
theorem writeDentry_eq {v : List UInt8} {inodeno len : Nat} (hbuffer : buffer = a ++ (v ++ b)) (hdir : dir = a.length)
    (hlen : EXT2_DIRENT_SIZE + filename.bytes.length ≤ v.length) : writeDentry filename inodeno len buffer dir =
      some (a ++ (dirent inodeno len FILETYPE_REG filename.bytes (v.drop (EXT2_DIRENT_SIZE + filename.bytes.length)) ++ b)) := by
  simp only [EXT2_DIRENT_SIZE] at hlen ⊢
  obtain ⟨v₁, v₂, rfl, h₁⟩ := exists_split (n := 4) (v := v) (by omega)
  rw [length_append] at hlen
  obtain ⟨v₂, v₃, rfl, h₂⟩ := exists_split (n := 2) (v := v₂) (by omega)
  rw [length_append] at hlen
  obtain ⟨v₃, v₄, rfl, h₃⟩ := exists_split (n := 2) (v := v₃) (by omega)
  rw [length_append] at hlen
  obtain ⟨v₄, v₅, rfl, h₄⟩ := exists_split (n := filename.bytes.length) (v := v₄) (by omega)
  have hdrop : (v₁ ++ (v₂ ++ (v₃ ++ (v₄ ++ v₅)))).drop (8 + filename.bytes.length) = v₅ := by
    rw [← append_assoc, ← append_assoc, ← append_assoc]
    exact drop_left' (by simp only [length_append]; omega)
  have hinode : writeAt buffer dir (leBytes 4 inodeno) = some (a ++ (leBytes 4 inodeno ++ (v₂ ++ (v₃ ++ (v₄ ++ (v₅ ++ b)))))) :=
    writeAt_eq (x := v₁) (by simp only [hbuffer, append_assoc]) hdir (by rw [length_leBytes, h₁])
  have hsetlen : setDirentlen (a ++ (leBytes 4 inodeno ++ (v₂ ++ (v₃ ++ (v₄ ++ (v₅ ++ b)))))) dir len =
      some (a ++ leBytes 4 inodeno ++ (leBytes 2 len ++ (v₃ ++ (v₄ ++ (v₅ ++ b))))) :=
    writeAt_eq (append_assoc ..).symm (by rw [length_append, length_leBytes, hdir]) (by rw [length_leBytes, h₂])
  have htype : writeAt (a ++ leBytes 4 inodeno ++ (leBytes 2 len ++ (v₃ ++ (v₄ ++ (v₅ ++ b))))) (dir + 6)
      [UInt8.ofNat filename.bytes.length, FILETYPE_REG] = some (a ++ leBytes 4 inodeno ++ leBytes 2 len ++
        ([UInt8.ofNat filename.bytes.length, FILETYPE_REG] ++ (v₄ ++ (v₅ ++ b)))) :=
    writeAt_eq (append_assoc ..).symm (by simp only [length_append, length_leBytes, hdir]) h₃.symm
  have hname : writeAt (a ++ leBytes 4 inodeno ++ leBytes 2 len ++ ([UInt8.ofNat filename.bytes.length, FILETYPE_REG] ++
      (v₄ ++ (v₅ ++ b)))) (dir + 8) filename.bytes = some (a ++ leBytes 4 inodeno ++ leBytes 2 len ++
        [UInt8.ofNat filename.bytes.length, FILETYPE_REG] ++ (filename.bytes ++ (v₅ ++ b))) :=
    writeAt_eq (append_assoc ..).symm (by simp only [length_append, length_leBytes, hdir]; rfl) h₄.symm
  rw [writeDentry, hinode]
  simp only [bind_eq_bind, bind_some]
  rw [hsetlen]
  simp only [bind_some]
  rw [htype]
  simp only [bind_some]
  rw [show EXT2_DIRENT_SIZE = 8 from rfl, hname, hdrop]
  simp only [dirent, append_assoc]

theorem exists_first_entry {p : ExtDirent → Prop} [DecidablePred p] (h : ∃ x ∈ es, p x) :
    ∃ mid e post, es = mid ++ e :: post ∧ (∀ x ∈ mid, ¬ p x) ∧ p e := by
  obtain ⟨x, hx, hp⟩ := h
  cases hfind : es.find? fun e => p e with
  | none =>
    rw [find?_eq_none] at hfind
    exact absurd (decide_eq_true hp) (hfind x hx)
  | some e =>
    obtain ⟨he, mid, post, hsplit, hmid⟩ := find?_eq_some_iff_append.1 hfind
    exact ⟨mid, e, post, hsplit, fun x hx => by simpa using hmid x hx, of_decide_eq_true he⟩

/-- The entries with a new one that is used. -/
def Made (filename : CString) (inodeno : Nat) (old new : List (Nat × UInt8 × List UInt8)) : Prop :=
  ∃ a b, old = a ++ b ∧ new = a ++ (inodeno, FILETYPE_REG, filename.bytes) :: b

/-- The new entry is made behind one with room for it. -/
theorem Tiles.make (h : Tiles blksz buffer (mid ++ e :: post)) (he : Room filename e) (hname : filename.bytes.length < 256) {inodeno : Nat}
    (hpos : 0 < inodeno) (hlt : inodeno < 2 ^ 32 - 1) :
    ∃ buffer' es', writeDentry filename inodeno e.void.length (area mid ++ (e.shorten.bytes ++ (e.void ++ area post)))
      ((area mid).length + e.shorten.len) = some buffer' ∧ Tiles blksz buffer' es' ∧
        Made filename inodeno (live (mid ++ e :: post)) (live es') := by
  have hle : direntBytes e.name.length ≤ e.len := Nat.le_trans (Nat.le_add_right ..) he
  have hvoid := ExtDirent.length_void hle
  have hshort := ExtDirent.len_shorten hle
  have hbytes := (direntBytes_le filename.bytes.length).1
  have hroom : EXT2_DIRENT_SIZE + filename.bytes.length ≤ e.void.length := by
    unfold Room at he
    omega
  have hlen : EXT2_DIRENT_SIZE + filename.bytes.length + (e.void.drop (EXT2_DIRENT_SIZE + filename.bytes.length)).length = e.void.length := by
    rw [length_drop]
    omega
  have hmax := e.len_lt
  have hnew : EXT2_DIRENT_SIZE + filename.bytes.length + (e.void.drop (EXT2_DIRENT_SIZE + filename.bytes.length)).length < 2 ^ 16 := by
    rw [hlen]
    simp only [ExtDirent.len] at hvoid
    omega
  let new : ExtDirent := ⟨inodeno, FILETYPE_REG, filename.bytes, e.void.drop (EXT2_DIRENT_SIZE + filename.bytes.length), hlt, hname, hnew⟩
  have hnewlen : new.len = e.void.length := hlen
  refine ⟨area (mid ++ e.shorten :: new :: post), mid ++ e.shorten :: new :: post, ?_, ⟨?_, rfl⟩, live (mid ++ [e]), live post, ?_, ?_⟩
  · rw [writeDentry_eq (a := area mid ++ e.shorten.bytes) (append_assoc ..).symm
      (by rw [length_append, ExtDirent.length_bytes]) hroom, area_split, area_cons, ExtDirent.bytes, ExtDirent.bytes, hnewlen,
      append_assoc]
  · have hsplit := h.split_length
    rw [area_split, area_cons, length_append, length_append, length_append, ExtDirent.length_bytes, ExtDirent.length_bytes,
      hnewlen, hvoid, hshort]
    omega
  · rw [← live_append, append_assoc]
    rfl
  · have hnew : live (new :: post) = new.said :: live post := by rw [live_cons, if_pos (show new.inode ≠ 0 from Nat.ne_of_gt hpos)]
    have hsame : live (e.shorten :: new :: post) = live (e :: new :: post) := by
      rw [live_cons e.shorten, live_cons e]
      rfl
    rw [live_append, hsame, ← live_append, append_cons, live_append, hnew]
    rfl

theorem findVoid_make {l : ExtDirent} (h : Tiles blksz buffer (mid ++ [l])) (hroom : ∃ e ∈ mid ++ [l], Room filename e)
    (hname : filename.bytes.length < 256) : ∃ pos void buffer' len,
      findVoid filename blksz buffer (buffer.length + 1) 0 = some (some (pos, void, buffer')) ∧ direntlen buffer' pos = some len ∧
        ∀ inodeno, 0 < inodeno → inodeno < 2 ^ 32 - 1 → ∃ buffer'' es',
          writeDentry filename inodeno (if void ≠ 0 then void else blksz - (pos + len)) buffer' (pos + len) = some buffer'' ∧
            Tiles blksz buffer'' es' ∧ Made filename inodeno (live (mid ++ [l])) (live es') := by
  obtain ⟨pre, e, post, hsplit, hpre, he⟩ := exists_first_entry hroom
  rw [hsplit] at h ⊢
  have hle : direntBytes e.name.length ≤ e.len := Nat.le_trans (Nat.le_add_right ..) he
  have hvoid := ExtDirent.length_void hle
  have hshort := ExtDirent.len_shorten hle
  have hnew := (direntBytes_le filename.bytes.length).1
  have hlen : direntlen (area pre ++ (e.shorten.bytes ++ (e.void ++ area post))) (area pre).length = some e.shorten.len := by
    rw [ExtDirent.bytes, direntlen_eq, e.shorten.len_mod]
  have hne : e.void.length ≠ 0 := by
    unfold Room at he
    simp only [EXT2_DIRENT_SIZE] at hnew
    omega
  by_cases hpost : post = []
  · subst hpost
    have hmax := e.len_lt
    have hend : (area pre).length + e.len = blksz := h.split_length
    have hlast : ¬ (2 ^ 32 + e.len - direntBytes e.name.length) % 2 ^ 32 < direntBytes filename.bytes.length := by
      rw [show 2 ^ 32 + e.len - direntBytes e.name.length = e.len - direntBytes e.name.length + 2 ^ 32 by omega, Nat.add_mod_right,
        Nat.mod_eq_of_lt (by simp only [ExtDirent.len]; omega)]
      unfold Room at he
      omega
    have hfind := findVoid_last h hpre (Nat.le_succ_of_le h.length_le)
    rw [if_neg hlast, ExtDirent.cut hle] at hfind
    rw [show area [] = [] from rfl, append_nil] at hlen
    refine ⟨_, _, _, _, hfind, hlen, fun inodeno hpos hlt => ?_⟩
    obtain ⟨buffer', es', hwrite, htiles⟩ := h.make he hname hpos hlt
    refine ⟨buffer', es', ?_, htiles⟩
    rw [show area [] = [] from rfl, append_nil] at hwrite
    rw [if_neg (by simp), show blksz - ((area pre).length + e.shorten.len) = e.void.length by omega]
    exact hwrite
  · refine ⟨_, _, _, _, findVoid_room h hpost hpre he (Nat.le_succ_of_le h.length_le), hlen, fun inodeno hpos hlt => ?_⟩
    rw [if_pos hne]
    exact h.make he hname hpos hlt

/-- An entry is shorter than its name with what fills it up. -/
def Unpadded (e : ExtDirent) : Prop := e.len < direntBytes e.name.length

/-- Behind a last entry that is too short, the new one would be outside the block. -/
theorem findVoid_unpadded {l : ExtDirent} (h : Tiles blksz buffer (mid ++ [l])) (hroom : ∀ e ∈ mid, ¬ Room filename e) (hl : Unpadded l)
    (hname : filename.bytes.length < 256) : ∃ pos buffer' len,
      findVoid filename blksz buffer (buffer.length + 1) 0 = some (some (pos, 0, buffer')) ∧ direntlen buffer' pos = some len ∧
        ∀ inodeno n, writeDentry filename inodeno n buffer' (pos + len) = none := by
  have hmax := l.len_lt
  have hlname := l.name_lt
  have hbound := (direntBytes_le l.name.length).2
  have hnew := (direntBytes_le filename.bytes.length).2
  have hend : (area mid).length + l.len = blksz := h.split_length
  simp only [EXT2_DIRENT_SIZE] at hbound hnew
  unfold Unpadded at hl
  have hfind := findVoid_last h hroom (Nat.le_succ_of_le h.length_le)
  rw [if_neg (by rw [Nat.mod_eq_of_lt (by omega)]; omega)] at hfind
  have hlen := @direntlen_eq l.inode (direntBytes l.name.length) l.filetype l.name l.slack (area mid) []
  rw [append_nil, Nat.mod_eq_of_lt (by omega)] at hlen
  refine ⟨_, _, _, hfind, hlen, fun inodeno n => ?_⟩
  have hlength : (area mid ++ dirent l.inode (direntBytes l.name.length) l.filetype l.name l.slack).length = blksz := by
    rw [length_append, length_dirent]
    exact hend
  rw [writeDentry, writeAt_of_outside (by rw [length_leBytes, hlength]; omega)]
  rfl

theorem findVoid_full {l : ExtDirent} (h : Tiles blksz buffer (mid ++ [l])) (hroom : ∀ e ∈ mid ++ [l], ¬ Room filename e)
    (hl : ¬ Unpadded l) : findVoid filename blksz buffer (buffer.length + 1) 0 = some none := by
  have hmax := l.len_lt
  have hlast := hroom l (mem_append_right mid (mem_singleton_self l))
  unfold Room at hlast
  unfold Unpadded at hl
  rw [findVoid_last h (fun x hx => hroom x (mem_append_left _ hx)) (Nat.le_succ_of_le h.length_le), if_pos]
  rw [show 2 ^ 32 + l.len - direntBytes l.name.length = l.len - direntBytes l.name.length + 2 ^ 32 by omega, Nat.add_mod_right,
    Nat.mod_eq_of_lt (by simp only [ExtDirent.len]; omega)]
  omega

end Ext4Dirents

end UBoot
