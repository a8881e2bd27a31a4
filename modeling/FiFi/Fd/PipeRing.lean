import FiFi.Fd.Table
import FiFi.Library.RingBuffer
import FiFi.Library.StateMachine
import FiFi.Net.Checksum

/-!
# The ring of a pipe

`pipe_ring_write` and `pipe_ring_read` copy in two parts when a block goes over
the end of the buffer. A pipe holds a queue of bytes, which starts at `head`;
writing appends to it as much as fits, and reading takes the oldest bytes. So the
ring is a bounded queue, and what is read is what was accepted, in order.
-/

namespace FiFi.Fd

open Net RingBuffer StateMachine

/-- The byte `buf[i]`. -/
def byteOf (buf : Fin pipeBuf → UInt8) (i : Nat) : UInt8 :=
  if h : i < pipeBuf then buf ⟨i, h⟩ else 0

/-- The loop that copies `n` bytes of `src` to `buf + o`. -/
def storeAt (buf : Fin pipeBuf → UInt8) (o n : Nat) (src : Nat → UInt8) : Fin pipeBuf → UInt8 :=
  fun x => if o ≤ x.val ∧ x.val < o + n then src (x - o) else buf x

/-- The loop that copies `n` bytes from `buf + o`. -/
def loadAt (buf : Fin pipeBuf → UInt8) (o n : Nat) : List UInt8 :=
  (List.range n).map fun i => byteOf buf (o + i)

/-- `pipe_ring_write`: the number of bytes that were accepted. -/
def pipeRingWrite (p : Pipe) (src : Nat → UInt8) (n : UInt32) : Nat × Pipe :=
  let freeSpace := u32 (pipeBuf + 2 ^ 32 - p.nread)
  let n := if n.toNat > freeSpace then freeSpace else n.toNat
  if n = 0 then (0, p)
  else
    let tail := u32 (p.head + p.nread) % pipeBuf
    let chunk := if pipeBuf - tail > n then n else pipeBuf - tail
    let buf := storeAt p.buf tail chunk src
    let buf := if chunk < n then storeAt buf 0 (n - chunk) fun i => src (chunk + i) else buf
    (n, { p with buf := buf, nread := u32 (p.nread + n) })

/-- `pipe_ring_read`: the bytes that were taken. -/
def pipeRingRead (p : Pipe) (n : UInt32) : List UInt8 × Pipe :=
  let n := if n.toNat > p.nread then p.nread else n.toNat
  if n = 0 then ([], p)
  else
    let room := u32 (pipeBuf + 2 ^ 32 - p.head)
    let chunk := if room > n then n else room
    let out := loadAt p.buf p.head chunk ++
      if chunk < n then loadAt p.buf 0 (n - chunk) else []
    (out, { p with head := u32 (p.head + n) % pipeBuf, nread := p.nread - n })

/-! ### The queue -/

/-- The pipe as a ring buffer. -/
def Pipe.ring (p : Pipe) : Buf UInt8 where
  data := byteOf p.buf
  head := (p.head + p.nread) % pipeBuf
  tail := p.head
  len := p.nread

/-- The bytes in a pipe, oldest first. -/
def Pipe.queue (p : Pipe) : List UInt8 := contents pipeBuf p.ring

/-- The indices of a pipe are in bounds. -/
structure Pipe.Bounded (p : Pipe) : Prop where
  head_lt : p.head < pipeBuf
  nread_le : p.nread ≤ pipeBuf

theorem length_queue (p : Pipe) : p.queue.length = p.nread := contents_length _

theorem byteOf_storeAt (buf : Fin pipeBuf → UInt8) (o n : Nat) (src : Nat → UInt8) {i : Nat}
    (hi : i < pipeBuf) : byteOf (storeAt buf o n src) i =
      if o ≤ i ∧ i < o + n then src (i - o) else byteOf buf i := by
  unfold byteOf
  rw [dif_pos hi, dif_pos hi]
  rfl

/-- A cell of the ring, without the division. -/
theorem ring_index {h i : Nat} (hh : h < pipeBuf) (hi : i ≤ pipeBuf) :
    (h + i) % pipeBuf = if h + i < pipeBuf then h + i else h + i - pipeBuf := by
  split
  · rename_i hlt
    exact Nat.mod_eq_of_lt hlt
  · rename_i hge
    rw [Nat.mod_eq_sub_mod (by omega), Nat.mod_eq_of_lt (by omega)]

/-- The two copies of a write, cell by cell. -/
theorem byteOf_stored (buf : Fin pipeBuf → UInt8) {tail m : Nat} (src : Nat → UInt8)
    (htail : tail < pipeBuf) (hm : m ≤ pipeBuf) {chunk : Nat}
    (hchunk : chunk = if pipeBuf - tail > m then m else pipeBuf - tail) {i : Nat}
    (hi : i < pipeBuf) :
    byteOf (if chunk < m then storeAt (storeAt buf tail chunk src) 0 (m - chunk)
        fun i => src (chunk + i) else storeAt buf tail chunk src) i =
      if tail ≤ i ∧ i < tail + m then src (i - tail)
      else if i + pipeBuf < tail + m then src (i + pipeBuf - tail) else byteOf buf i := by
  by_cases hsplit : pipeBuf - tail > m
  · rw [if_pos hsplit] at hchunk
    subst hchunk
    rw [if_neg (by omega), byteOf_storeAt _ _ _ _ hi]
    split
    · rfl
    · rw [if_neg (by omega)]
  · rw [if_neg hsplit] at hchunk
    subst hchunk
    by_cases hfull : pipeBuf - tail < m
    · rw [if_pos hfull, byteOf_storeAt _ _ _ _ hi, byteOf_storeAt _ _ _ _ hi]
      by_cases hwrap : i < m - (pipeBuf - tail)
      · rw [if_pos (by omega), if_neg (by omega), if_pos (by omega)]
        congr 1
        omega
      · rw [if_neg (by omega)]
        by_cases hin : tail ≤ i
        · rw [if_pos (by omega), if_pos (by omega)]
        · rw [if_neg (by omega), if_neg (by omega), if_neg (by omega)]
    · rw [if_neg hfull, byteOf_storeAt _ _ _ _ hi]
      by_cases hin : tail ≤ i
      · rw [if_pos (by omega), if_pos (by omega)]
      · rw [if_neg (by omega), if_neg (by omega), if_neg (by omega)]

variable {p : Pipe}

/-- A buffer with new bytes in the cells behind the queue. -/
theorem queue_append {buf : Fin pipeBuf → UInt8} {src : Nat → UInt8} {tail m : Nat}
    (h : p.Bounded) (htail : tail = (p.head + p.nread) % pipeBuf) (hm : p.nread + m ≤ pipeBuf)
    (hcell : ∀ i < pipeBuf, byteOf buf i = if tail ≤ i ∧ i < tail + m then src (i - tail)
      else if i + pipeBuf < tail + m then src (i + pipeBuf - tail) else byteOf p.buf i) :
    Pipe.queue { p with buf := buf, nread := p.nread + m } =
      p.queue ++ (List.range m).map src := by
  rw [ring_index h.head_lt h.nread_le] at htail
  have hhead := h.head_lt
  have hlt : ∀ i, (p.head + i) % pipeBuf < pipeBuf := fun i => Nat.mod_lt _ (by decide)
  have hblock := @contents_block _ pipeBuf p.ring
    ({ p with buf := buf, nread := p.nread + m } : Pipe).ring m rfl rfl
  refine (hblock fun i hi => ?_).trans (congrArg _ (List.map_congr_left fun i hi => ?_))
  · have hi : i < p.nread := hi
    have hx := ring_index (i := i) hhead (by omega)
    refine (hcell _ (hlt i)).trans ?_
    change _ = byteOf p.buf ((p.head + i) % pipeBuf)
    generalize (p.head + i) % pipeBuf = x at hx ⊢
    rw [if_neg (by split_ifs at hx htail <;> omega), if_neg (by split_ifs at hx htail <;> omega)]
  · have hi := List.mem_range.1 hi
    have hx := ring_index (i := p.nread + i) hhead (by omega)
    refine (hcell _ (hlt (p.nread + i))).trans ?_
    generalize (p.head + (p.nread + i)) % pipeBuf = x at hx ⊢
    by_cases hge : tail ≤ x
    · have hi' : x - tail = i := by split_ifs at hx htail <;> omega
      rw [if_pos (by omega), hi']
    · have hi' : x + pipeBuf - tail = i := by split_ifs at hx htail <;> omega
      rw [if_neg (by omega), if_pos (by omega), hi']

/-- As many bytes are accepted as there is room for, and they come last. -/
theorem pipeRingWrite_spec (h : p.Bounded) (src : Nat → UInt8) (n : UInt32) :
    (pipeRingWrite p src n).1 = min n.toNat (pipeBuf - p.nread) ∧
      (pipeRingWrite p src n).2.Bounded ∧
      (pipeRingWrite p src n).2.queue =
        p.queue ++ (List.range (min n.toNat (pipeBuf - p.nread))).map src := by
  have hhead := h.head_lt
  have hnread := h.nread_le
  have hroom : u32 (pipeBuf + 2 ^ 32 - p.nread) = pipeBuf - p.nread := by
    unfold u32 pipeBuf at *
    omega
  have hmin : (if n.toNat > pipeBuf - p.nread then pipeBuf - p.nread else n.toNat) =
      min n.toNat (pipeBuf - p.nread) := by
    split <;> omega
  have htail : u32 (p.head + p.nread) % pipeBuf = (p.head + p.nread) % pipeBuf := by
    unfold u32 pipeBuf at *
    omega
  unfold pipeRingWrite
  simp only [hroom, hmin, htail]
  generalize hm : min n.toNat (pipeBuf - p.nread) = m
  by_cases h0 : m = 0
  · subst h0
    exact ⟨rfl, h, by simp⟩
  · have hsum : u32 (p.nread + m) = p.nread + m := by
      unfold u32 pipeBuf at *
      omega
    rw [if_neg h0, hsum]
    refine ⟨rfl, ⟨hhead, by simp only; omega⟩, queue_append h rfl (by omega) fun i hi => ?_⟩
    exact byteOf_stored p.buf src (Nat.mod_lt _ (by decide)) (by omega) rfl hi

/-- The two copies of a read. -/
theorem loadAt_append (buf : Fin pipeBuf → UInt8) {head n : Nat} (hhead : head < pipeBuf)
    (hn : n ≤ pipeBuf) {chunk : Nat}
    (hchunk : chunk = if pipeBuf - head > n then n else pipeBuf - head) :
    (loadAt buf head chunk ++ if chunk < n then loadAt buf 0 (n - chunk) else []) =
      (List.range n).map fun i => byteOf buf ((head + i) % pipeBuf) := by
  have hle : chunk ≤ n := by split_ifs at hchunk <;> omega
  obtain ⟨k, rfl⟩ := Nat.exists_eq_add_of_le hle
  have htail : (if chunk < chunk + k then loadAt buf 0 (chunk + k - chunk) else []) =
      loadAt buf 0 k := by
    by_cases h0 : k = 0
    · rw [h0, if_neg (by omega)]
      rfl
    · rw [if_pos (by omega), Nat.add_sub_cancel_left]
  rw [htail, List.range_add, List.map_append, List.map_map]
  unfold loadAt
  congr 1
  · refine List.map_congr_left fun i hi => ?_
    have hi := List.mem_range.1 hi
    rw [Nat.mod_eq_of_lt (by split_ifs at hchunk <;> omega)]
  · refine List.map_congr_left fun i hi => ?_
    have hi := List.mem_range.1 hi
    have hx := ring_index (i := chunk + i) hhead (by omega)
    have hi' : 0 + i = (head + (chunk + i)) % pipeBuf := by
      rw [hx]
      split_ifs at hchunk ⊢ <;> omega
    rw [hi']
    rfl

/-- The oldest bytes are taken, as many as are asked for. -/
theorem pipeRingRead_spec (h : p.Bounded) (n : UInt32) :
    (pipeRingRead p n).1 = p.queue.take n.toNat ∧ (pipeRingRead p n).2.Bounded ∧
      (pipeRingRead p n).2.queue = p.queue.drop n.toNat := by
  have hhead := h.head_lt
  have hnread := h.nread_le
  have hmin : (if n.toNat > p.nread then p.nread else n.toNat) = min n.toNat p.nread := by
    split <;> omega
  have hroom : u32 (pipeBuf + 2 ^ 32 - p.head) = pipeBuf - p.head := by
    unfold u32 pipeBuf at *
    omega
  have htake : p.queue.take n.toNat = p.queue.take (min n.toNat p.nread) := by
    rw [← length_queue p, List.take_eq_take_min]
  have hdrop : p.queue.drop n.toNat = p.queue.drop (min n.toNat p.nread) := by
    rw [← length_queue p, List.drop_eq_drop_min]
  unfold pipeRingRead
  simp only [hroom, hmin]
  rw [htake, hdrop]
  generalize hm : min n.toNat p.nread = m
  by_cases h0 : m = 0
  · subst h0
    exact ⟨rfl, h, rfl⟩
  · have hmod : u32 (p.head + m) % pipeBuf = (p.head + m) % pipeBuf := by
      unfold u32 pipeBuf at *
      omega
    rw [if_neg h0, hmod]
    refine ⟨?_, ⟨Nat.mod_lt _ (by decide), by simp only; omega⟩, ?_⟩
    · rw [loadAt_append p.buf hhead (by omega) rfl]
      exact (contents_take (r := p.ring) (show m ≤ p.nread by omega)).symm
    · exact contents_drop (r := p.ring) rfl rfl (by simp only [Pipe.ring]; omega)

/-! ### Runs -/

/-- What is done with a pipe. -/
inductive RingOp where
  | write (src : Nat → UInt8) (n : UInt32)
  | read (n : UInt32)

/-- The number of bytes that an operation accepts, and the bytes it takes. -/
def RingOp.run (p : Pipe) : RingOp → (Nat × List UInt8) × Pipe
  | .write src n => (((pipeRingWrite p src n).1, []), (pipeRingWrite p src n).2)
  | .read n => ((0, (pipeRingRead p n).1), (pipeRingRead p n).2)

/-- The same on a queue of at most `pipeBuf` bytes. -/
def RingOp.spec (q : List UInt8) : RingOp → (Nat × List UInt8) × List UInt8
  | .write src n =>
      ((min n.toNat (pipeBuf - q.length), []),
        q ++ (List.range (min n.toNat (pipeBuf - q.length))).map src)
  | .read n => ((0, q.take n.toNat), q.drop n.toNat)

/-- The replies to a sequence of operations. -/
def repliesOf {S : Type} (f : S → RingOp → (Nat × List UInt8) × S) : S → List RingOp →
    List (Nat × List UInt8)
  | _, [] => []
  | s, op :: ops => (f s op).1 :: repliesOf f (f s op).2 ops

/-- The bytes that the writes of a sequence had accepted. -/
def acceptedOf : List RingOp → List (Nat × List UInt8) → List UInt8
  | .write src _ :: ops, r :: rs => (List.range r.1).map src ++ acceptedOf ops rs
  | .read _ :: ops, _ :: rs => acceptedOf ops rs
  | _, _ => []

/-- The bytes that the reads of a sequence took. -/
def takenOf (rs : List (Nat × List UInt8)) : List UInt8 := rs.flatMap Prod.snd

/-- One operation on the ring is the operation on the queue. -/
theorem RingOp.run_spec (h : p.Bounded) (op : RingOp) :
    (op.run p).1 = (op.spec p.queue).1 ∧ (op.run p).2.Bounded ∧
      (op.run p).2.queue = (op.spec p.queue).2 := by
  cases op with
  | write src n =>
      obtain ⟨hacc, hb, hq⟩ := pipeRingWrite_spec h src n
      simp only [RingOp.run, RingOp.spec, length_queue]
      exact ⟨by rw [hacc], hb, hq⟩
  | read n =>
      obtain ⟨hout, hb, hq⟩ := pipeRingRead_spec h n
      simp only [RingOp.run, RingOp.spec]
      exact ⟨by rw [hout], hb, hq⟩

/-- A pipe that was just taken from the pool is empty. -/
theorem pipeAlloc_empty {V : Type*} {s s' : Tables V} {id : PipeId}
    (h : pipeAlloc s = some (id, s')) : (s'.pipes id).Bounded ∧ (s'.pipes id).queue = [] := by
  obtain ⟨i, -, hi⟩ := Option.map_eq_some_iff.1 h
  cases hi
  simp only [setPipe, Function.update_self]
  exact ⟨⟨Nat.succ_pos _, Nat.zero_le _⟩, rfl⟩

/-- What was accepted is what was taken and what is still there. -/
theorem taken_append_queue (h : p.Bounded) (ops : List RingOp) :
    p.queue ++ acceptedOf ops (repliesOf RingOp.run p ops) =
      takenOf (repliesOf RingOp.run p ops) ++ (run (fun p op => (op.run p).2) p ops).queue := by
  induction ops generalizing p with
  | nil => simp [repliesOf, acceptedOf, takenOf]
  | cons op ops ih =>
      obtain ⟨-, hb, hq⟩ := op.run_spec h
      have htail := ih hb
      rw [hq] at htail
      obtain ⟨hreply, -, -⟩ := op.run_spec h
      rw [run_cons]
      cases op with
      | write src n =>
          simp only [repliesOf, acceptedOf, takenOf, List.flatMap_cons, RingOp.spec, hreply]
            at htail ⊢
          rw [← List.append_assoc, htail, List.nil_append]
      | read n =>
          simp only [repliesOf, acceptedOf, takenOf, List.flatMap_cons, RingOp.spec, hreply]
            at htail ⊢
          rw [List.append_assoc, ← htail, ← List.append_assoc, List.take_append_drop]

theorem replies_eq (h : p.Bounded) (ops : List RingOp) :
    repliesOf RingOp.run p ops = repliesOf RingOp.spec p.queue ops ∧
      (run (fun p op => (op.run p).2) p ops).Bounded ∧
      (run (fun p op => (op.run p).2) p ops).queue =
        run (fun q op => (op.spec q).2) p.queue ops := by
  induction ops generalizing p with
  | nil => exact ⟨rfl, h, rfl⟩
  | cons op ops ih =>
      obtain ⟨hreply, hb, hq⟩ := op.run_spec h
      obtain ⟨hreplies, hbounded, hqueue⟩ := ih hb
      refine ⟨?_, hbounded, ?_⟩
      · rw [repliesOf, repliesOf, hreply, hreplies, hq]
      · rw [run_cons, run_cons, hqueue, hq]

/-- On a pipe from the pool every sequence of operations has the replies of a queue of
at most `pipeBuf` bytes, and the bytes read are the first of the bytes accepted. -/
theorem pipeRing_run {V : Type*} {s s' : Tables V} {id : PipeId}
    (h : pipeAlloc s = some (id, s')) (ops : List RingOp) :
    repliesOf RingOp.run (s'.pipes id) ops = repliesOf RingOp.spec [] ops ∧
      (run (fun p op => (op.run p).2) (s'.pipes id) ops).Bounded ∧
      (run (fun p op => (op.run p).2) (s'.pipes id) ops).queue =
        run (fun q op => (op.spec q).2) [] ops ∧
      takenOf (repliesOf RingOp.run (s'.pipes id) ops) <+:
        acceptedOf ops (repliesOf RingOp.run (s'.pipes id) ops) := by
  obtain ⟨hb, hq⟩ := pipeAlloc_empty h
  obtain ⟨hreplies, hbounded, hqueue⟩ := replies_eq hb ops
  have htaken := taken_append_queue hb ops
  rw [hq] at hreplies hqueue htaken
  exact ⟨hreplies, hbounded, hqueue, _, htaken.symm⟩

/-- The first pipe of the pool accepts three bytes and gives two of them back. -/
theorem pipeRing_run_first :
    repliesOf RingOp.run { Pipe.zero with ropen := 1, wopen := 1 }
      [.write (fun _ => 7) 3, .read 2] = [(3, []), (0, [7, 7])] := by
  have halloc : pipeAlloc (Tables.init ()) = some (⟨0, Nat.succ_pos 7⟩,
      setPipe (Tables.init ()) ⟨0, Nat.succ_pos 7⟩ { Pipe.zero with ropen := 1, wopen := 1 }) := rfl
  have hrun := (pipeRing_run halloc [.write (fun _ => 7) 3, .read 2]).1
  simp only [setPipe, Function.update_self] at hrun
  exact hrun.trans (by decide)

end FiFi.Fd
