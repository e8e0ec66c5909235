import UBoot.CircBuf

/-!
# The circular buffer is a queue that drops its oldest bytes

`Holds` relates the buffer, with the pointer of a loop in the place of `tail`, to the queue it stands for: the bytes are those from `top`
on, modulo `totalsize`. Each byte pushed keeps it, and so does each byte popped.
-/

namespace UBoot

open List

namespace Queue

/-- A byte put into a queue of capacity `cap`, which discards its oldest byte on overflow. -/
def put (cap : Nat) (q : List UInt8) (c : UInt8) : List UInt8 := if q.length < cap then q ++ [c] else (q ++ [c]).tail

/-- The calls on the queue: what each pop returns and takes, and the queue at the end. -/
def run (cap : Nat) (q : List UInt8) : List BufCall → List (Int × List UInt8) × List UInt8
  | [] => ([], q)
  | .push src :: calls => run cap (src.foldl (put cap) q) calls
  | .pop len :: calls =>
    let (rets, q') := run cap (q.drop len) calls
    (((min len q.length : Nat), q.take len) :: rets, q')

end Queue

/-- The bytes in the buffer, the oldest first. -/
def CircBuf.contents (buf : CircBuf) : List (Option UInt8) :=
  (range buf.size).map fun i => buf.data[(buf.top + i) % buf.totalsize]?

/-- The pointers lie inside the data and are as far apart as the size says. -/
structure CircBuf.Inside (buf : CircBuf) : Prop where
  data : buf.data.length = buf.totalsize
  size : buf.size ≤ buf.totalsize
  top : buf.top < buf.totalsize
  tail : buf.tail < buf.totalsize
  apart : (buf.tail : Int) - buf.top ≡ buf.size [ZMOD buf.totalsize]

namespace CircBufAux

variable {buf buf' : CircBuf} {p : Nat} {q : List UInt8}

/-- The buffer with the write pointer `p` holds the queue `q`. -/
structure Holds (buf : CircBuf) (p : Nat) (q : List UInt8) : Prop where
  data : buf.data.length = buf.totalsize
  bufEnd : buf.bufEnd = buf.totalsize
  small : buf.totalsize < 2 ^ 31
  top : buf.top < buf.totalsize
  size : buf.size = q.length
  fits : q.length ≤ buf.totalsize
  tail : p = (buf.top + q.length) % buf.totalsize
  bytes : ∀ i < q.length, buf.data[(buf.top + i) % buf.totalsize]? = q[i]?

theorem wrap_eq (hend : buf.bufEnd = buf.totalsize) (hp : p < buf.totalsize) : buf.wrap (p + 1) = (p + 1) % buf.totalsize := by
  rw [CircBuf.wrap, hend]
  split
  · next h => rw [h, Nat.mod_self]
  · rw [Nat.mod_eq_of_lt (by omega)]

theorem add_mod_ne (top : Nat) {i n T : Nat} (hi : i < n) (hn : n < T) : (top + n) % T ≠ (top + i) % T := by
  intro h
  have hcancel : n ≡ i [MOD T] := Nat.ModEq.add_left_cancel' top h
  have := Nat.ModEq.eq_of_lt_of_lt hcancel hn (by omega)
  omega

theorem Holds.lt (h : Holds buf p q) : p < buf.totalsize := by
  rw [h.tail]
  exact Nat.mod_lt _ (Nat.zero_lt_of_lt h.top)

/-- A byte pushed. In a full buffer it takes the place of the oldest one, and the next one is at `top`. -/
theorem Holds.pushByte (h : Holds buf p q) (c : UInt8) :
    ∃ buf' p', buf.pushByte p c = some (buf', p') ∧ buf'.totalsize = buf.totalsize ∧ Holds buf' p' (Queue.put buf.totalsize q c) := by
  have hT := Nat.zero_lt_of_lt h.top
  have hset (top : Nat) : (buf.data.set p c)[top]? = if p = top then some c else buf.data[top]? := by
    rw [getElem?_set]
    split
    · rw [if_pos (h.data ▸ h.lt)]
    · rfl
  rw [CircBuf.pushByte, if_pos (h.data ▸ h.lt)]
  by_cases hfull : q.length < buf.totalsize
  · refine ⟨_, _, if_pos (h.size ▸ hfull), rfl, ?_⟩
    rw [Queue.put, if_pos hfull]
    refine ⟨?_, h.bufEnd, h.small, h.top, ?_, ?_, ?_, fun i hi => ?_⟩
    · exact length_set.trans h.data
    · rw [length_append, length_singleton, ← h.size]
    · rw [length_append, length_singleton]
      exact hfull
    · rw [length_append, length_singleton]
      show buf.wrap (p + 1) = (buf.top + (q.length + 1)) % buf.totalsize
      rw [wrap_eq h.bufEnd h.lt, h.tail, Nat.mod_add_mod, Nat.add_assoc]
    · rw [length_append, length_singleton] at hi
      show (buf.data.set p c)[(buf.top + i) % buf.totalsize]? = _
      rw [hset, h.tail]
      by_cases hlast : i = q.length
      · rw [hlast, if_pos rfl, getElem?_concat_length]
      · rw [if_neg (add_mod_ne _ (by omega) hfull), h.bytes i (by omega), getElem?_append_left (by omega)]
  · have hlen : q.length = buf.totalsize := Nat.le_antisymm h.fits (Nat.not_lt.1 hfull)
    have hput : (Queue.put buf.totalsize q c).length = q.length := by
      rw [Queue.put, if_neg hfull, length_tail, length_append, length_singleton, Nat.add_sub_cancel]
    have hp : p = buf.top := by rw [h.tail, hlen, Nat.add_mod_right, Nat.mod_eq_of_lt h.top]
    refine ⟨_, _, if_neg (h.size ▸ hfull), rfl, ?_⟩
    have hnext : buf.wrap (buf.top + 1) = (buf.top + 1) % buf.totalsize := wrap_eq h.bufEnd h.top
    refine ⟨?_, h.bufEnd, h.small, ?_, ?_, ?_, ?_, fun i hi => ?_⟩
    · exact length_set.trans h.data
    · show buf.wrap (buf.top + 1) < buf.totalsize
      rw [hnext]
      exact Nat.mod_lt _ hT
    · rw [hput]
      exact h.size
    · rw [hput]
      exact h.fits
    · show buf.wrap (p + 1) = (buf.wrap (buf.top + 1) + _) % buf.totalsize
      rw [hput, hlen, hp, hnext, Nat.add_mod_right, Nat.mod_mod]
    · rw [hput] at hi
      show (buf.data.set p c)[(buf.wrap (buf.top + 1) + i) % buf.totalsize]? = _
      rw [hset, hnext, Nat.mod_add_mod, Nat.add_assoc, Nat.add_comm 1 i, Queue.put, if_neg hfull, getElem?_tail, hp]
      by_cases hlast : i + 1 = q.length
      · rw [hlast, hlen, Nat.add_mod_right, Nat.mod_eq_of_lt h.top, if_pos rfl, ← hlen, getElem?_concat_length]
      · have hne : buf.top ≠ (buf.top + (i + 1)) % buf.totalsize := by
          have := add_mod_ne buf.top (Nat.succ_pos i) (show i + 1 < buf.totalsize by omega)
          rw [Nat.add_zero, Nat.mod_eq_of_lt h.top] at this
          exact this.symm
        rw [if_neg hne, h.bytes (i + 1) (by omega), getElem?_append_left (by omega)]

theorem Holds.pushLoop (src : List UInt8) (h : Holds buf p q) :
    ∃ buf' p', buf.pushLoop p src = some (buf', p') ∧ buf'.totalsize = buf.totalsize ∧
      Holds buf' p' (src.foldl (Queue.put buf.totalsize) q) := by
  induction src generalizing buf p q with
  | nil => exact ⟨buf, p, rfl, rfl, h⟩
  | cons c src ih =>
    obtain ⟨buf₁, p₁, hbyte, htotal₁, h₁⟩ := h.pushByte c
    obtain ⟨buf', p', hloop, htotal, h'⟩ := ih h₁
    refine ⟨buf', p', ?_, htotal.trans htotal₁, htotal₁ ▸ h'⟩
    rw [CircBuf.pushLoop, hbyte]
    exact hloop

/-- The loop of `buf_pop` reads the first bytes of the queue. -/
theorem popLoop_eq (hend : buf.bufEnd = buf.totalsize) (len : Nat) (hp : p < buf.totalsize) (hlen : len ≤ q.length)
    (hbytes : ∀ i < q.length, buf.data[(p + i) % buf.totalsize]? = q[i]?) :
    buf.popLoop len p = some (q.take len, (p + len) % buf.totalsize) := by
  induction len generalizing p q with
  | zero => rw [CircBuf.popLoop, take_zero, Nat.add_zero, Nat.mod_eq_of_lt hp]
  | succ len ih =>
    cases q with
    | nil => exact absurd hlen (Nat.not_succ_le_zero len)
    | cons c q =>
      have hc : buf.data[p]? = some c := by
        have := hbytes 0 (Nat.succ_pos _)
        rwa [Nat.add_zero, Nat.mod_eq_of_lt hp] at this
      have hrest (i : Nat) (hi : i < q.length) : buf.data[((p + 1) % buf.totalsize + i) % buf.totalsize]? = q[i]? := by
        rw [Nat.mod_add_mod, Nat.add_assoc, Nat.add_comm 1 i, hbytes (i + 1) (Nat.succ_lt_succ hi), getElem?_cons_succ]
      rw [CircBuf.popLoop, hc, wrap_eq hend hp]
      show (buf.popLoop len ((p + 1) % buf.totalsize)).bind _ = _
      rw [ih (Nat.mod_lt _ (Nat.zero_lt_of_lt hp)) (Nat.le_of_succ_le_succ hlen) hrest, Nat.mod_add_mod, Nat.add_assoc, Nat.add_comm 1 len]
      rfl

theorem Holds.pop (h : Holds buf buf.tail q) (len : Nat) :
    ∃ buf', bufPop buf len = some (((min len q.length : Nat) : Int), q.take len, buf') ∧ buf'.totalsize = buf.totalsize ∧
      Holds buf' buf'.tail (q.drop len) := by
  have hcap : (if len > buf.size then buf.size else len) = min len q.length := by
    rw [h.size]
    split <;> omega
  have hle : min len q.length ≤ q.length := Nat.min_le_right ..
  have htake : q.take (min len q.length) = q.take len := by rw [← take_take, take_length]
  have hint : unsignedInt (min len q.length) = (min len q.length : Nat) := if_pos (by have := h.fits; have := h.small; omega)
  have hloop := popLoop_eq h.bufEnd _ h.top hle h.bytes
  refine ⟨{ buf with top := (buf.top + min len q.length) % buf.totalsize, size := buf.size - min len q.length }, ?_, rfl, ?_⟩
  · rw [bufPop]
    simp only [hcap, hloop, hint, Option.bind_eq_bind, Option.bind_some, htake]
  · have hsub : q.length - len = q.length - min len q.length := by omega
    refine ⟨h.data, h.bufEnd, h.small, Nat.mod_lt _ (Nat.zero_lt_of_lt h.top), ?_, ?_, ?_, fun i hi => ?_⟩
    · rw [length_drop, hsub, ← h.size]
    · rw [length_drop]
      exact Nat.le_trans (Nat.sub_le ..) h.fits
    · show buf.tail = (_ % buf.totalsize + _) % buf.totalsize
      rw [length_drop, hsub, Nat.mod_add_mod, Nat.add_assoc, Nat.add_sub_cancel' hle]
      exact h.tail
    · rw [length_drop] at hi
      show buf.data[(_ % buf.totalsize + i) % buf.totalsize]? = _
      rw [Nat.mod_add_mod, Nat.add_assoc, h.bytes _ (by omega), getElem?_drop, Nat.min_eq_left (by omega)]

/-- The calls keep the buffer in step with the queue. -/
theorem Holds.run (calls : List BufCall) (h : Holds buf buf.tail q) :
    ∃ buf', bufRun buf calls = some ((Queue.run buf.totalsize q calls).1, buf') ∧ buf'.totalsize = buf.totalsize ∧
      Holds buf' buf'.tail (Queue.run buf.totalsize q calls).2 := by
  induction calls generalizing buf q with
  | nil => exact ⟨buf, rfl, rfl, h⟩
  | cons call calls ih =>
    cases call with
    | push src =>
      obtain ⟨buf₁, p₁, hloop, htotal₁, h₁⟩ := h.pushLoop src
      have hpush : bufPush buf src = some (unsignedInt src.length, { buf₁ with tail := p₁ }) := by
        rw [bufPush, hloop]
        rfl
      have h₂ : Holds { buf₁ with tail := p₁ } p₁ (src.foldl (Queue.put buf.totalsize) q) :=
        ⟨h₁.data, h₁.bufEnd, h₁.small, h₁.top, h₁.size, h₁.fits, h₁.tail, h₁.bytes⟩
      obtain ⟨buf', hrun, htotal, h'⟩ := ih h₂
      refine ⟨buf', ?_, htotal.trans htotal₁, htotal₁ ▸ h'⟩
      rw [bufRun, hpush]
      exact hrun.trans (by rw [show ({ buf₁ with tail := p₁ } : CircBuf).totalsize = buf.totalsize from htotal₁]; rfl)
    | pop len =>
      obtain ⟨buf₁, hpop, htotal₁, h₁⟩ := h.pop len
      obtain ⟨buf', hrun, htotal, h'⟩ := ih h₁
      refine ⟨buf', ?_, htotal.trans htotal₁, htotal₁ ▸ h'⟩
      rw [bufRun, hpop]
      show (bufRun buf₁ calls).bind _ = _
      rw [hrun, htotal₁]
      rfl

theorem Holds.contents (h : Holds buf p q) : buf.contents = q.map some := by
  refine ext_getElem? fun i => ?_
  rw [CircBuf.contents, getElem?_map, getElem?_map, h.size]
  by_cases hi : i < q.length
  · rw [getElem?_range hi, Option.map_some, h.bytes i hi, getElem?_eq_getElem hi]
    rfl
  · rw [getElem?_eq_none (by rw [length_range]; omega), getElem?_eq_none (by omega)]
    rfl

theorem Holds.inside (h : Holds buf buf.tail q) : buf.Inside := by
  refine ⟨h.data, h.size ▸ h.fits, h.top, h.lt, ?_⟩
  have hmod : (buf.tail : Int) ≡ buf.top + buf.size [ZMOD buf.totalsize] := by
    rw [h.size]
    have := congrArg (fun n : Nat => (n : Int)) h.tail
    rw [Int.natCast_mod, Nat.cast_add] at this
    rw [this]
    exact Int.mod_modEq _ _
  have := hmod.sub_right (buf.top : Int)
  rwa [add_sub_cancel_left] at this

end CircBufAux

open CircBufAux in
/-- After `buf_init` every sequence of calls pops what a queue of capacity `totalsize` gives that discards its oldest byte on overflow,
and leaves in the buffer what the queue holds; each `buf_pop` returns how many bytes it took. -/
theorem circbuf_queue (malloc : Malloc) (size : Nat) (hsize : 0 < size) (buf : CircBuf) (hinit : bufInit malloc size = some buf)
    (calls : List BufCall) :
    ∃ buf', bufRun buf calls = some ((Queue.run size [] calls).1, buf') ∧ buf'.totalsize = size ∧
      buf'.contents = (Queue.run size [] calls).2.map some ∧ buf'.Inside := by
  obtain ⟨data, hdata, rfl⟩ := Option.map_eq_some_iff.1 hinit
  have hsmall : size < 2 ^ 31 := by
    by_contra hle
    rw [malloc.negative size (Nat.not_lt.1 hle)] at hdata
    cases hdata
  have h : Holds ⟨0, size, data, 0, 0, size⟩ 0 [] :=
    ⟨malloc.length_eq size data hdata, rfl, hsmall, hsize, rfl, Nat.zero_le _, (Nat.zero_mod size).symm,
      fun i hi => absurd hi (Nat.not_lt_zero i)⟩
  obtain ⟨buf', hrun, htotal, h'⟩ := h.run calls
  exact ⟨buf', hrun, htotal, h'.contents, h'.inside⟩

/-- A heap that gives out zeros. -/
def zeroMalloc : Malloc where
  alloc bytes := if bytes < 2 ^ 31 then some (replicate bytes 0) else none
  length_eq bytes block h := by
    split at h
    · rw [← Option.some.inj h, length_replicate]
    · cases h
  negative bytes h := if_neg (Nat.not_lt.2 h)

/-- Five bytes pushed into three push the first two out. -/
theorem circbuf_queue_wraps : 0 < 3 ∧ ∃ buf', bufRun ⟨0, 3, replicate 3 0, 0, 0, 3⟩ [.push [1, 2, 3, 4, 5], .pop 2] =
    some ((Queue.run 3 [] [.push [1, 2, 3, 4, 5], .pop 2]).1, buf') ∧ buf'.totalsize = 3 ∧
      buf'.contents = (Queue.run 3 [] [.push [1, 2, 3, 4, 5], .pop 2]).2.map some ∧ buf'.Inside :=
  ⟨by decide, circbuf_queue zeroMalloc 3 (by decide) _ rfl _⟩

end UBoot
