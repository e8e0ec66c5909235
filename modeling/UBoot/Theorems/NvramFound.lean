import UBoot.Lemmas.NvramAux

/-!
# Which NVRAM images are read inside their bounds

The CRC uses the length in the header of an image as it is, less the header.
-/

namespace UBoot

open NvramAux List Option

/-- An image of the size of the flash area, with a length of 32 bits. -/
structure NvramImage.Sized (image : NvramImage) : Prop where
  size : image.data.length = CONFIG_NVRAM_SIZE - NVRAM_HEADER_SIZE
  len : image.header.len < 2 ^ 32

/-- The CRC, the start from the image and the parser stay inside the image and its copy in the memory `heap`. -/
def NvramImage.ReadInside (hndcrc8 : List UInt8 → UInt8 → UInt8) (malloc : Nat → Bool) (heap : List UInt8) (s : Nvram)
    (image : NvramImage) : Prop :=
  (nvramCrcTest hndcrc8 image).isSome ∧ (nvramInitIn (some heap) malloc (some image) s).isSome ∧ (nvramRehashIn malloc image).isSome

namespace NvramFoundAux

/-! ### The CRC -/

variable {image : NvramImage} {p : UInt8 → Bool} {xs : List UInt8} {b : UInt8}

theorem crcTest_isSome_iff (hndcrc8 : List UInt8 → UInt8 → UInt8) (h : image.Sized) :
    (nvramCrcTest hndcrc8 image).isSome ↔ NVRAM_HEADER_SIZE ≤ image.header.len ∧ image.header.len ≤ CONFIG_NVRAM_SIZE := by
  have hlen := h.len
  have hsub : sub32 image.header.len NVRAM_HEADER_SIZE ≤ image.data.length ↔
      NVRAM_HEADER_SIZE ≤ image.header.len ∧ image.header.len ≤ CONFIG_NVRAM_SIZE := by
    rw [h.size]
    unfold sub32 NVRAM_HEADER_SIZE CONFIG_NVRAM_SIZE
    omega
  rw [← hsub]
  simp only [nvramCrcTest, nvramCalcCrcIn, isSome_map]
  split
  next hin => exact iff_of_true rfl hin
  next hout => exact iff_of_false Bool.false_ne_true hout

theorem nvramCalcCrcIn_eq (hndcrc8 : List UInt8 → UInt8 → UInt8) (h : image.Sized)
    (hlow : NVRAM_HEADER_SIZE ≤ image.header.len) (hhigh : image.header.len ≤ CONFIG_NVRAM_SIZE) :
    nvramCalcCrcIn hndcrc8 image = some (nvramCalcCrc hndcrc8 image) := by
  have hsub : sub32 image.header.len NVRAM_HEADER_SIZE = image.header.len - NVRAM_HEADER_SIZE := sub32_of_le hlow h.len
  have hin : image.header.len - NVRAM_HEADER_SIZE ≤ image.data.length := by
    rw [h.size]
    omega
  unfold nvramCalcCrcIn nvramCalcCrc
  simp only [hsub, hin, if_true]

/-! ### The copy -/

theorem length_bytes (image : NvramImage) : image.bytes.length = NVRAM_HEADER_SIZE + image.data.length := by
  simp only [NvramImage.bytes, length_append]
  rfl

theorem copyWords_some (src : List UInt8) (words i : Nat) (dst : List UInt8) (hsrc : i + 4 * words ≤ src.length)
    (hdst : i + 4 * words ≤ dst.length) : ∃ dst', copyWords src words i dst = some dst' ∧ dst'.length = dst.length := by
  induction words generalizing i dst with
  | zero => exact ⟨dst, rfl, rfl⟩
  | succ words ih =>
    have hword : ((src.drop i).take 4).length = 4 := by
      rw [length_take, length_drop]
      omega
    obtain ⟨dst', hput, hlen⟩ := putBytes_some dst ((src.drop i).take 4) i (by omega)
    obtain ⟨dst'', hrest, hlen'⟩ := ih (i + 4) dst' (by omega) (by omega)
    refine ⟨dst'', ?_, hlen'.trans hlen⟩
    rw [copyWords, if_pos (by omega), hput, bind_some, hrest]

theorem nvramRead_some (h : image.Sized) {buf : List UInt8} (hbuf : buf.length = CONFIG_NVRAM_SIZE) :
    ∃ buf', nvramRead (some image) buf = some (0, buf') ∧ buf'.length = CONFIG_NVRAM_SIZE := by
  have hbytes : image.bytes.length = CONFIG_NVRAM_SIZE := by
    rw [length_bytes, h.size]
    rfl
  obtain ⟨buf1, h1, hlen1⟩ := copyWords_some image.bytes (NVRAM_HEADER_SIZE / 4) 0 buf (by rw [hbytes]; decide) (by rw [hbuf]; decide)
  have hwords : NVRAM_HEADER_SIZE + 4 * ((min image.header.len CONFIG_NVRAM_SIZE - NVRAM_HEADER_SIZE + 3) / 4) ≤ CONFIG_NVRAM_SIZE := by
    unfold NVRAM_HEADER_SIZE CONFIG_NVRAM_SIZE
    omega
  obtain ⟨buf2, h2, hlen2⟩ := copyWords_some image.bytes _ NVRAM_HEADER_SIZE buf1
    (by rw [hbytes]; exact hwords) (by rw [hlen1, hbuf]; exact hwords)
  refine ⟨buf2, ?_, by rw [hlen2, hlen1, hbuf]⟩
  simp only [nvramRead, h1, h2, bind_some, map_some]

/-! ### The parser -/

theorem findIdx?_first (hxs : ∀ x ∈ xs, p x = false) (hb : p b = true)
    (ys : List UInt8) : (xs ++ b :: ys).findIdx? p = some xs.length := by
  rw [findIdx?_append, findIdx?_eq_none_iff.2 hxs, findIdx?_cons, hb]
  simp

theorem takeWhile_first (hxs : ∀ x ∈ xs, p x = true) (hb : p b = false)
    (ys : List UInt8) : (xs ++ b :: ys).takeWhile p = xs := by
  rw [takeWhile_append_of_pos hxs, takeWhile_cons_of_neg (by simp [hb]), append_nil]

/-- What is left of an image: its two NULs are ahead, or only the last of them is left. -/
def NulAhead (rest : List UInt8) : Prop := [0, 0] <:+ rest ∨ rest = [0]

theorem nulAhead_split (xs : List UInt8) : ∃ str rest, xs ++ [0, 0] = str ++ 0 :: rest ∧ (0 : UInt8) ∉ str ∧ NulAhead rest := by
  induction xs with
  | nil => exact ⟨[], [0], rfl, not_mem_nil, Or.inr rfl⟩
  | cons x xs ih =>
    by_cases hx : x = 0
    · subst hx
      exact ⟨[], xs ++ [0, 0], rfl, not_mem_nil, Or.inl (suffix_append _ _)⟩
    · obtain ⟨str, rest, heq, hstr, hrest⟩ := ih
      refine ⟨x :: str, rest, by rw [cons_append, heq, cons_append], ?_, hrest⟩
      simp [hstr, Ne.symm hx]

/-- Where `strchr` ends: at the first equals sign or NUL. -/
theorem findIdx?_name {name : List UInt8} (heq : chEquals ∉ name) (hnul : (0 : UInt8) ∉ name) (hb : b = chEquals ∨ b = 0)
    (rest : List UInt8) : (name ++ b :: rest).findIdx? (fun b => b == chEquals || b == 0) = some name.length := by
  refine findIdx?_first (fun x hx => ?_) ?_ rest
  · rw [Bool.or_eq_false_iff, beq_eq_false_iff_ne, beq_eq_false_iff_ne]
    exact ⟨fun h0 => heq (h0 ▸ hx), fun h0 => hnul (h0 ▸ hx)⟩
  · rw [Bool.or_eq_true, beq_iff_eq, beq_iff_eq]
    exact hb

/-- The parser with its checks reads a tuple as the parser does. -/
theorem rehashLoopIn_text {t : NvramTuple} (ht : chEquals ∉ t.name.bytes) (malloc : Nat → Bool) (fuel n : Nat) (rest : List UInt8)
    (s : Nvram) : rehashLoopIn malloc (fuel + 1) n (t.text ++ rest) s =
      rehashLoopIn malloc fuel (n + 1) rest (nvramSet (malloc n) t.name t.value s).2 := by
  have hbody : t.text ++ rest = t.name.bytes ++ chEquals :: (t.value.bytes ++ 0 :: rest) := by simp [NvramTuple.text]
  obtain ⟨c, hhead, hc⟩ : ∃ c, (t.name.bytes ++ chEquals :: (t.value.bytes ++ 0 :: rest)).head? = some c ∧ c ≠ 0 := by
    cases hname : t.name.bytes with
    | nil => exact ⟨chEquals, rfl, by decide⟩
    | cons c name => exact ⟨c, rfl, fun h0 => t.name.nul_free (by rw [hname, h0]; exact mem_cons_self)⟩
  have hget : (t.name.bytes ++ chEquals :: (t.value.bytes ++ 0 :: rest))[t.name.bytes.length]? = some chEquals := by simp
  have hvalue : (t.value.bytes ++ 0 :: rest).findIdx? (· == 0) = some t.value.bytes.length :=
    findIdx?_first (fun x hx => beq_eq_false_iff_ne.2 fun h0 : x = 0 => t.value.nul_free (h0 ▸ hx)) rfl rest
  rw [rehashLoopIn, hbody, hhead]
  dsimp only
  rw [if_neg hc, findIdx?_name ht t.name.nul_free (Or.inl rfl)]
  simp only [hget, drop_past, hvalue, ne_eq, not_true_eq_false, if_false, take_left, CString.ofBytes_bytes]

/-- Both parsers end at a string without an equals sign. -/
theorem rehashLoops_bare {str : List UInt8} (heq : chEquals ∉ str) (hnul : (0 : UInt8) ∉ str) (malloc : Nat → Bool) (fuel n : Nat)
    (rest : List UInt8) (s : Nvram) : rehashLoopIn malloc (fuel + 1) n (str ++ 0 :: rest) s = some (n, s) ∧
      rehashLoop malloc (fuel + 1) n (str ++ 0 :: rest) s = (n, s) := by
  have htake : (str ++ 0 :: rest).takeWhile (· != 0) = str :=
    takeWhile_first (fun x hx => bne_iff_ne.2 fun h0 : x = 0 => hnul (h0 ▸ hx)) rfl rest
  have hget : (str ++ 0 :: rest)[str.length]? = some 0 := by simp
  constructor
  · rw [rehashLoopIn]
    cases hhead : (str ++ 0 :: rest).head? with
    | none => exact absurd (head?_eq_none_iff.1 hhead) (by simp)
    | some c =>
      dsimp only
      split
      · rfl
      · rw [findIdx?_name heq hnul (Or.inr rfl)]
        dsimp only
        rw [hget, if_pos (by decide)]
  · rw [rehashLoop, htake]
    exact if_pos (Or.inr heq)

/-- With the NULs ahead the parser stays inside, and is the one without checks. -/
theorem rehashLoopIn_eq (malloc : Nat → Bool) (fuel n : Nat) {rest : List UInt8} (h : NulAhead rest) (s : Nvram) :
    rehashLoopIn malloc fuel n rest s = some (rehashLoop malloc fuel n rest s) := by
  induction fuel generalizing n rest s with
  | zero => rfl
  | succ fuel ih =>
    obtain ⟨str, rest', rfl, hstr, hrest'⟩ : ∃ str rest', rest = str ++ 0 :: rest' ∧ (0 : UInt8) ∉ str ∧ (str ≠ [] → NulAhead rest') := by
      rcases h with ⟨xs, rfl⟩ | rfl
      · obtain ⟨str, rest', heq, hstr, hrest'⟩ := nulAhead_split xs
        exact ⟨str, rest', heq, hstr, fun _ => hrest'⟩
      · exact ⟨[], [], rfl, not_mem_nil, fun h => absurd rfl h⟩
    by_cases heq : chEquals ∈ str
    · -- a name, an equals sign and a value
      obtain ⟨name, value, rfl, hname⟩ := eq_append_cons_of_mem heq
      have hname0 : (0 : UInt8) ∉ name := fun h0 => hstr (mem_append_left _ h0)
      have hvalue0 : (0 : UInt8) ∉ value := fun h0 => hstr (mem_append_right _ (mem_cons_of_mem _ h0))
      have htext : name ++ chEquals :: value ++ 0 :: rest' = NvramTuple.text ⟨⟨name, hname0⟩, ⟨value, hvalue0⟩⟩ ++ rest' := by
        simp [NvramTuple.text]
      rw [htext, rehashLoopIn_text hname, rehashLoop_text hname]
      exact ih (n + 1) (hrest' (by simp)) _
    · obtain ⟨hin, hout⟩ := rehashLoops_bare heq hstr malloc fuel n rest' s
      rw [hin, hout]

/-- The parser with its checks is the parser, on an image of the right size. -/
theorem nvramRehashIn_eq (malloc : Nat → Bool)
    (h : image.data.length = CONFIG_NVRAM_SIZE - NVRAM_HEADER_SIZE) : nvramRehashIn malloc image = some (nvramRehash malloc image) := by
  have hroom : 2 ≤ image.data.length := by
    rw [h]
    decide
  have hput : putBytes image.data (CONFIG_NVRAM_SIZE - NVRAM_HEADER_SIZE - 2) [0, 0] = some (endNuls image.data) := by
    have hold : (image.data.drop (image.data.length - 2)).length = [(0 : UInt8), 0].length := by
      rw [length_drop]
      simp only [length_cons, length_nil]
      omega
    have := putBytes_append (image.data.take (image.data.length - 2)) (image.data.drop (image.data.length - 2)) [] [0, 0] hold
    rw [append_nil, append_nil, take_append_drop, length_take_of_le (by omega)] at this
    rw [← h]
    exact this
  have hnul : NulAhead (endNuls image.data) := Or.inl (suffix_append _ _)
  unfold nvramRehashIn nvramRehash
  rw [hput]
  dsimp only
  rw [rehashLoopIn_eq malloc _ _ hnul, map_some]

theorem nvramInitIn_isSome (malloc : Nat → Bool) (h : image.Sized) {heap : List UInt8}
    (hheap : heap.length = CONFIG_NVRAM_SIZE) (s : Nvram) : (nvramInitIn (some heap) malloc (some image) s).isSome := by
  obtain ⟨buf, hread, hbuf⟩ := nvramRead_some h hheap
  have hsize : (NvramImage.ofBytes buf).data.length = CONFIG_NVRAM_SIZE - NVRAM_HEADER_SIZE := by
    rw [NvramImage.ofBytes, length_drop, hbuf]
  unfold nvramInitIn
  simp only [hread, bind_some, nvramRehashIn_eq malloc hsize, map_some]
  split <;> rfl

/-! ### What a commit writes -/

theorem commitHeader_crc (get : CString → Option CString) : (commitHeader get).crcVerInit % 2 ^ 8 = 0 := by
  have hversion : NVRAM_VERSION <<< 8 % 2 ^ 8 = 0 := by decide
  have hinit (n : Nat) : n <<< 16 % 2 ^ 8 = 0 := by
    rw [Nat.shiftLeft_eq]
    omega
  unfold commitHeader
  split
  · dsimp only
    rw [Nat.or_mod_two_pow, hversion, hinit, Nat.or_self]
  · dsimp only
    rw [Nat.or_mod_two_pow, hversion, hinit, Nat.or_self]

theorem crc_or {word : Nat} (h : word % 2 ^ 8 = 0) (crc : UInt8) :
    (word ||| crc.toNat) % 2 ^ 8 = crc.toNat ∧ (word ||| crc.toNat) / 2 ^ 8 * 2 ^ 8 = word / 2 ^ 8 * 2 ^ 8 := by
  have hlt : crc.toNat < 2 ^ 8 := crc.toNat_lt
  rw [Nat.or_mod_two_pow, h, Nat.mod_eq_of_lt hlt, Nat.zero_or, Nat.or_div_two_pow, Nat.div_eq_of_lt hlt, Nat.or_zero]
  exact ⟨rfl, rfl⟩

theorem nvramCalcCrc_or (hndcrc8 : List UInt8 → UInt8 → UInt8) (h : image.header.crcVerInit % 2 ^ 8 = 0) (crc : UInt8) :
    nvramCalcCrc hndcrc8 { image with header := { image.header with crcVerInit := image.header.crcVerInit ||| crc.toNat } } =
      nvramCalcCrc hndcrc8 image := by
  unfold nvramCalcCrc
  simp only [(crc_or h crc).2]

/-- The image of a commit before its CRC is set. -/
def unsealed (s : Nvram) : NvramImage where
  header := { commitHeader (nvramGet s) with len := (NVRAM_HEADER_SIZE + (commitTuples s).length + 2 + 3) / 4 * 4 }
  data := commitTuples s ++ List.replicate (CONFIG_NVRAM_SIZE - NVRAM_HEADER_SIZE - (commitTuples s).length) 0

/-- A commit generates an image of the right size, with a length inside it. -/
theorem sized_commitImage (hndcrc8 : List UInt8 → UInt8 → UInt8) (s : Nvram) :
    (commitImage hndcrc8 s).Sized ∧ NVRAM_HEADER_SIZE ≤ (commitImage hndcrc8 s).header.len ∧
      (commitImage hndcrc8 s).header.len ≤ CONFIG_NVRAM_SIZE := by
  have hle := length_commitTuples_le s
  have hroom : CONFIG_NVRAM_SIZE - NVRAM_HEADER_SIZE = nvramRoom + 2 := by decide
  have hlen : (commitImage hndcrc8 s).header.len = (NVRAM_HEADER_SIZE + (commitTuples s).length + 2 + 3) / 4 * 4 := rfl
  have hsize : (commitImage hndcrc8 s).data.length = CONFIG_NVRAM_SIZE - NVRAM_HEADER_SIZE := by
    show (commitTuples s ++ List.replicate _ 0).length = _
    rw [length_append, length_replicate]
    omega
  have hbound : (commitImage hndcrc8 s).header.len ≤ CONFIG_NVRAM_SIZE := by
    rw [hlen]
    unfold NVRAM_HEADER_SIZE CONFIG_NVRAM_SIZE at *
    omega
  have hsmall : CONFIG_NVRAM_SIZE < 2 ^ 32 := by decide
  exact ⟨⟨hsize, Nat.lt_of_le_of_lt hbound hsmall⟩, by rw [hlen]; omega, hbound⟩

theorem crcTest_commitImage (hndcrc8 : List UInt8 → UInt8 → UInt8) (s : Nvram) : nvramCrcTest hndcrc8 (commitImage hndcrc8 s) = some true := by
  obtain ⟨hsized, hlow, hhigh⟩ := sized_commitImage hndcrc8 s
  have hfree : (unsealed s).header.crcVerInit % 2 ^ 8 = 0 := commitHeader_crc (nvramGet s)
  have hcommit : commitImage hndcrc8 s = { unsealed s with header := { (unsealed s).header with crcVerInit :=
      (unsealed s).header.crcVerInit ||| (nvramCalcCrc hndcrc8 (unsealed s)).toNat } } := rfl
  rw [nvramCrcTest, nvramCalcCrcIn_eq hndcrc8 hsized hlow hhigh, map_some, hcommit, nvramCalcCrc_or hndcrc8 hfree]
  dsimp only
  rw [(crc_or hfree _).1, decide_eq_true rfl]

theorem findNvram_first (hndcrc8 : List UInt8 → UInt8 → UInt8) (h : nvramCrcTest hndcrc8 image = some true)
    {before : List NvramPlace} (hbefore : ∀ p ∈ before, p.magic ≠ NVRAM_MAGIC) (after : List NvramPlace) (embedded : NvramImage) :
    findNvram hndcrc8 (before ++ ⟨NVRAM_MAGIC, some image⟩ :: after) embedded = some (some image, false) := by
  have hloop : findNvramLoop hndcrc8 (before ++ ⟨NVRAM_MAGIC, some image⟩ :: after) = some (some image) := by
    induction before with
    | nil => simp [findNvramLoop, h]
    | cons p before ih =>
      rw [cons_append, findNvramLoop, if_pos (hbefore p mem_cons_self)]
      exact ih fun q hq => hbefore q (mem_cons_of_mem _ hq)
  rw [findNvram, hloop]

end NvramFoundAux

open NvramFoundAux

/-- An image is read inside its bounds exactly when its length is between that of the header and the size of the image. What a commit
generates is such an image, and `find_nvram` accepts it. -/
theorem nvram_readInside_iff (hndcrc8 : List UInt8 → UInt8 → UInt8) (malloc : Nat → Bool) (heap : List UInt8) (s : Nvram) (image : NvramImage) :
    (image.Sized → heap.length = CONFIG_NVRAM_SIZE →
      (image.ReadInside hndcrc8 malloc heap s ↔ NVRAM_HEADER_SIZE ≤ image.header.len ∧ image.header.len ≤ CONFIG_NVRAM_SIZE)) ∧
    ((nvramRegenerate hndcrc8 malloc s).1 = image → image.Sized ∧ image.header.len ≤ CONFIG_NVRAM_SIZE ∧ nvramCrcTest hndcrc8 image = some true ∧
      ∀ before after embedded, (∀ p ∈ before, p.magic ≠ NVRAM_MAGIC) →
        findNvram hndcrc8 (before ++ ⟨image.header.magic, some image⟩ :: after) embedded = some (some image, false)) := by
  constructor
  · intro h hheap
    rw [NvramImage.ReadInside, crcTest_isSome_iff hndcrc8 h, nvramRehashIn_eq malloc h.size]
    exact and_iff_left ⟨nvramInitIn_isSome malloc h hheap s, rfl⟩
  · rintro rfl
    rw [nvramRegenerate_image]
    obtain ⟨hsized, -, hhigh⟩ := sized_commitImage hndcrc8 s
    have htest := crcTest_commitImage hndcrc8 s
    have hmagic : (commitImage hndcrc8 s).header.magic = NVRAM_MAGIC := by
      show (commitHeader (nvramGet s)).magic = NVRAM_MAGIC
      unfold commitHeader
      split <;> rfl
    refine ⟨hsized, hhigh, htest, fun before after embedded hbefore => ?_⟩
    rw [hmagic]
    exact findNvram_first hndcrc8 htest hbefore after embedded

/-- An image with the magic number and a length of 0, whose CRC goes over all of the memory behind it. -/
def zeroLength : NvramImage where
  header := { magic := NVRAM_MAGIC, len := 0, crcVerInit := 0, configRefresh := 0, configNcdl := 0 }
  data := List.replicate (CONFIG_NVRAM_SIZE - NVRAM_HEADER_SIZE) 0

theorem sized_zeroLength : zeroLength.Sized := ⟨length_replicate, by decide⟩

theorem nvram_readOutside : ¬∀ (hndcrc8 : List UInt8 → UInt8 → UInt8) (malloc : Nat → Bool) (heap : List UInt8) (s : Nvram)
    (image : NvramImage), image.Sized → image.header.magic = NVRAM_MAGIC → heap.length = CONFIG_NVRAM_SIZE →
    image.ReadInside hndcrc8 malloc heap s := by
  intro h
  have hin := (h (fun _ c => c) (fun _ => true) (List.replicate CONFIG_NVRAM_SIZE 0) Nvram.empty zeroLength sized_zeroLength rfl
    length_replicate).1
  rw [crcTest_isSome_iff _ sized_zeroLength] at hin
  exact absurd hin.1 (by decide)

/-- A table with two variables. -/
def twoSet : Nvram :=
  (nvramSet true (CString.ofBytes [0x62]) (CString.ofBytes [0x32]) (nvramSet true (CString.ofBytes [0x61]) (CString.ofBytes [0x31]) Nvram.empty).2).2

/-- The image of its commit is read inside its bounds, and found behind a place without the magic number. -/
theorem nvram_readInside_two : (commitImage (fun _ c => c) twoSet).ReadInside (fun _ c => c) (fun _ => true)
      (List.replicate CONFIG_NVRAM_SIZE 0) twoSet ∧
    findNvram (fun _ c => c) [⟨0, none⟩, ⟨(commitImage (fun _ c => c) twoSet).header.magic, some (commitImage (fun _ c => c) twoSet)⟩] zeroLength =
      some (some (commitImage (fun _ c => c) twoSet), false) := by
  obtain ⟨hreads, hcommit⟩ := nvram_readInside_iff (fun _ c => c) (fun _ => true) (List.replicate CONFIG_NVRAM_SIZE 0) twoSet
    (commitImage (fun _ c => c) twoSet)
  obtain ⟨hsized, hhigh, -, hfound⟩ := hcommit (nvramRegenerate_image _ _ _)
  refine ⟨(hreads hsized length_replicate).2 ⟨(sized_commitImage _ _).2.1, hhigh⟩, hfound [⟨0, none⟩] [] zeroLength ?_⟩
  simp [NVRAM_MAGIC]

end UBoot
