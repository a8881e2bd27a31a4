import FiFi.Fd.Unique
import FiFi.Vfs.FailedOpen

/-!
# Redirected output, read back

A process opens a path for writing, writes, closes it, opens it again and reads.
Between the two halves the content goes from the session file of the path to the
layers that `vfs_read` looks at: to another session file when there is no disk, to
the volume when there is one. It gets there only if something was written, if
there is room on the way, and if no other layer stands in front.
-/

namespace FiFi.Vfs

open FiFi.Fd StateMachine

/-! ### The sequence of calls -/

/-- One redirection: the path, whether it appends, what is written and how it is
read back. The `kmalloc` are those of the read of the old content, of the session
buffer, of each write, of the flush and of the last open. -/
structure Redirection where
  append : Bool
  cwd : List UInt8
  raw : List UInt8
  chunks : List (List UInt8 × Option Nat)
  lens : List Nat
  oldKm : Option Nat
  sessionKm : Option Nat
  closeKm : Option Nat
  openKm : Option Nat
  now : Nat

def openForWrite (s : Sys) (tid : Nat) (op : Redirection) : Sys × Int :=
  if op.append then sysOpenw s tid op.cwd (some op.raw) op.oldKm op.sessionKm
  else sysCreat s tid op.cwd (some op.raw)

/-- The writes in order, and the bytes that were accepted. -/
def writeAll (s : Sys) (tid : Nat) (fd : Int) :
    List (List UInt8 × Option Nat) → Option (List UInt8 × Sys)
  | [] => some ([], s)
  | chunk :: chunks =>
      (sysWrite s tid fd chunk.1 chunk.2).bind fun r =>
        (writeAll r.1 tid fd chunks).map fun q => (chunk.1.take r.2.toNat ++ q.1, q.2)

/-- The second half: open, read, close. -/
def readBack (s : Sys) (tid : Nat) (op : Redirection) : Option (List UInt8 × Sys) :=
  let o := sysOpen s tid op.cwd (some op.raw) op.openKm
  if o.2 < 0 then none
  else
    (readSeq o.1 tid o.2 op.lens).map fun q =>
      (q.1, (sysClose (flushFile none 0) q.2 tid true o.2).1)

/-- Both halves: the bytes accepted and the bytes read. There is no answer if a call
fails. -/
def roundTrip (s : Sys) (tid : Nat) (op : Redirection) :
    Option (List UInt8 × List UInt8 × Sys) :=
  let r := openForWrite s tid op
  if r.2 < 0 then none
  else
    (writeAll r.1 tid r.2 op.chunks).bind fun w =>
      (readBack (sysClose (flushFile op.closeKm op.now) w.2 tid true r.2).1 tid op).map fun q =>
        (w.1, q.1, q.2)

/-- What the process writes: a call takes at most 4096 bytes. -/
def Redirection.written (op : Redirection) : List UInt8 :=
  op.chunks.flatMap fun chunk => chunk.1.take 4096

/-- How many bytes the reads ask for. -/
def Redirection.asked (op : Redirection) : Nat := (op.lens.map fun len => min len 4096).sum

/-- The path of the redirection. -/
def Redirection.path (op : Redirection) : Option (List UInt8) := pathResolve pathCap op.cwd op.raw

/-- The size `vfs_read` reports for a path. -/
def sizeAt (v : Vfs) (path : List UInt8) : Nat := ((vfsRead v path (some 0)).1.map Prod.snd).getD 0

/-- What should be read: the old content, for an append, and then what was written. -/
def Redirection.expected (op : Redirection) (v : Vfs) (path : List UInt8) : List UInt8 :=
  (if op.append then (contentAt v path).getD [] else []) ++ op.written

/-- Every call succeeds, all bytes are accepted, and the reads return the expected
content from its start. -/
def RoundTrips (s : Sys) (tid : Nat) (op : Redirection) : Prop :=
  ∃ path s', op.path = some path ∧
    roundTrip s tid op = some (op.written, (op.expected s.vfs path).take op.asked, s')

/-! ### When it works -/

/-- The volume stores the bytes under the name and reads them back. -/
def VolumeTakes (v : Vfs) (n bytes : List UInt8) (now : Nat) : Prop :=
  (Ext2.readFile (Ext2.writeFile (vfsMkdirs v.ext2 (fullPath n) now) (fullPath n) bytes now).2
    (fullPath n) ext2BufCap).1 = some bytes

/-- The session table once the session file of the path is there. -/
def withSession (s : Ramfs) (path : List UInt8) : Ramfs := (ramfsCreat s path).1

/-- Where the content goes and why it is found there: without a disk to a session
file under the bare name, whose new buffer is no other buffer; with a disk to the
volume, when neither a session file nor the initrd has the name. -/
def Stored (v : Vfs) (path bytes : List UInt8) (op : Redirection) : Prop :=
  let n := vfsNormPath path
  n ≠ [] ∧
    if v.ext2.ready then
      ramfsGet v.ramfs n = none ∧ initrdGet v.initrd n = none ∧
        (v.buffer op.openKm).isSome ∧ VolumeTakes v n bytes op.now
    else
      (ramfsFind v.ramfs n ≠ none ∨ ramfsFree (withSession v.ramfs path) ≠ none) ∧
        ∃ a, op.closeKm = some a ∧
          ∀ b ∈ Vfs.buffers { v with ramfs := (ramfsDelete v.ramfs n).1 }, b.addr ≠ a

/-- The layers once the old content has been read. -/
def Redirection.before (op : Redirection) (v : Vfs) (path : List UInt8) : Vfs :=
  if op.append then (vfsRead v path op.oldKm).2 else v

/-- Nothing is to be stored, and the path already is an empty file. -/
def AlreadyEmpty (v : Vfs) (path : List UInt8) (op : Redirection) : Prop :=
  ∃ b, (vfsRead v path op.openKm).1 = some (some b, 0)

/-- A descriptor and a session file are free, memory is there, the whole content has
at most 64 KiB, and it is stored where it is looked for. -/
structure RedirectOk (s : Sys) (op : Redirection) (path : List UInt8) : Prop where
  resolves : op.path = some path
  file : isDevnull path = false
  slot : ∃ i, freeSlot s = some i
  session : ramfsFind s.vfs.ramfs path ≠ none ∨ ramfsFree s.vfs.ramfs ≠ none
  memory : ∀ chunk ∈ op.chunks, chunk.2.isSome
  old : op.append = true → op.sessionKm.isSome ∧ (s.vfs.buffer op.oldKm).isSome
  short : (if op.append then sizeAt s.vfs path else 0) + op.written.length ≤ ext2BufCap
  stored : op.expected s.vfs path ≠ [] →
    Stored (op.before s.vfs path) path (op.expected s.vfs path) op
  empty : op.expected s.vfs path = [] → AlreadyEmpty s.vfs path op

/-! ### Descriptors -/

/-- A search that only one slot answers. -/
theorem find?_finRange_eq {n : Nat} {p : Fin n → Bool} {i : Fin n} (hi : p i = true)
    (honly : ∀ j, p j = true → j = i) : (List.finRange n).find? p = some i := by
  cases hf : (List.finRange n).find? p with
  | none =>
      have hnone := List.find?_eq_none.1 hf i (List.mem_finRange i)
      exact absurd hi hnone
  | some j => rw [honly j (List.find?_some hf)]

/-- The entry that was just filled in is found. -/
theorem fdGet_setFd_new {s : Sys} {tid : Nat} {n : Int} (hnone : fdGet s tid n = none) (i : Slot)
    {e : SysFd} (hused : e.used = true) (howner : e.ownerTid = tid) (hnum : e.fdNum = n) :
    fdGet (setFd s i e) tid n = some i := by
  refine find?_finRange_eq ?_ ?_
  · simp [hused, howner, hnum]
  · intro j hj
    by_contra hji
    rw [setFd_fds_ne s e hji] at hj
    simp only [Bool.and_eq_true, beq_iff_eq] at hj
    exact fdGet_none hnone j ⟨hj.1.1, hj.1.2, hj.2⟩

/-- An entry keeps being found when only its other fields change. -/
theorem fdGet_setFd_same {s : Sys} {tid : Nat} {n : Int} {i : Slot} {e : SysFd}
    (hused : e.used = (s.fds i).used) (howner : e.ownerTid = (s.fds i).ownerTid)
    (hnum : e.fdNum = (s.fds i).fdNum) : fdGet (setFd s i e) tid n = fdGet s tid n := by
  refine List.find?_congr fun j _ => ?_
  by_cases hj : j = i
  · subst hj
    rw [setFd_fds_same, hused, howner, hnum]
  · rw [setFd_fds_ne s e hj]

/-- Filling a descriptor, when a slot is free. -/
theorem fdFill_some {s : Sys} (tid : Nat) (fill : SysFd) {i : Slot} (h : freeSlot s = some i) :
    ∃ n : Int, 0 ≤ n ∧ fdGet s tid n = none ∧
      fdFill s tid fill = (setFd s i { fill with used := true, fdNum := n, ownerTid := tid }, n) := by
  obtain ⟨n, hn⟩ := fdNextNum_isSome s tid
  refine ⟨n, ?_, fdNextNum_some hn, by simp only [fdFill, hn, h]⟩
  obtain ⟨k, -, rfl⟩ := List.mem_map.1 (List.mem_of_find?_eq_some hn)
  simp

/-! ### Reading from a file -/

/-- The descriptor in slot `j` reads this content. -/
structure ReadsFrom (s : Sys) (j : Slot) (content : List UInt8) : Prop where
  type : (s.fds j).type = .file
  size : (s.fds j).size = content.length
  bytes : (s.fds j).off < (s.fds j).size →
    ∃ b, s.vfs.bytesAt (s.fds j).data = some b ∧ b.take content.length = content

theorem sysRead_of_readsFrom {s : Sys} {tid : Nat} {fd : Int} {j : Slot} {content : List UInt8}
    (hget : fdGet s tid fd = some j) (h : ReadsFrom s j content) (len : Nat) :
    ∃ s', sysRead s tid fd len =
        some ((content.drop (s.fds j).off).take (min len 4096), s') ∧
      fdGet s' tid fd = some j ∧ ReadsFrom s' j content ∧
      (content.drop (s'.fds j).off) = (content.drop (s.fds j).off).drop (min len 4096) ∧
      s'.vfs = s.vfs ∧ s'.pipes = s.pipes ∧ ∀ k, k ≠ j → s'.fds k = s.fds k := by
  have hcall : sysRead s tid fd len =
      if (s.fds j).off ≥ (s.fds j).size then some ([], s)
      else (s.vfs.bytesAt (s.fds j).data).map fun b =>
        ((b.drop (s.fds j).off).take (min (min len 4096) ((s.fds j).size - (s.fds j).off)),
          setFd s j { s.fds j with
            off := (s.fds j).off + min (min len 4096) ((s.fds j).size - (s.fds j).off) }) := by
    rw [sysRead, hget, Option.bind_some, h.type]
  rw [hcall]
  by_cases hoff : (s.fds j).off ≥ (s.fds j).size
  · rw [if_pos hoff]
    have hnil : content.drop (s.fds j).off = [] :=
      List.drop_eq_nil_of_le (h.size ▸ hoff)
    exact ⟨s, by simp [hnil], hget, h, by simp [hnil], rfl, rfl, fun _ _ => rfl⟩
  · obtain ⟨b, hb, hbytes⟩ := h.bytes (by omega)
    rw [if_neg hoff, hb, Option.map_some]
    have hsize := h.size
    generalize hoff' : (s.fds j).off = off at hoff ⊢
    generalize hn : min (min len 4096) ((s.fds j).size - off) = n
    have hread : (b.drop off).take n = (content.drop off).take (min len 4096) := by
      rw [← hbytes, List.drop_take, List.take_take]
      congr 1
      omega
    refine ⟨setFd s j { s.fds j with off := off + n }, by rw [hread], ?_, ⟨?_, ?_, ?_⟩, ?_, rfl,
      rfl, ?_⟩
    · have hsame : fdGet (setFd s j { s.fds j with off := off + n }) tid fd = fdGet s tid fd :=
        fdGet_setFd_same rfl rfl rfl
      exact hsame.trans hget
    · rw [setFd_fds_same]
      exact h.type
    · rw [setFd_fds_same]
      exact hsize
    · intro _
      rw [setFd_fds_same]
      exact ⟨b, hb, hbytes⟩
    · rw [setFd_fds_same, List.drop_drop]
      change content.drop (off + n) = _
      by_cases hmin : min len 4096 ≤ (s.fds j).size - off
      · rw [show n = min len 4096 by omega]
      · rw [List.drop_eq_nil_of_le (by omega), List.drop_eq_nil_of_le (by omega)]
    · exact fun k hk => setFd_fds_ne s _ hk

theorem readSeq_of_readsFrom {s : Sys} {tid : Nat} {fd : Int} {j : Slot} {content : List UInt8}
    (hget : fdGet s tid fd = some j) (h : ReadsFrom s j content) (lens : List Nat) :
    ∃ s', readSeq s tid fd lens =
        some ((content.drop (s.fds j).off).take (lens.map fun len => min len 4096).sum, s') := by
  induction lens generalizing s with
  | nil => exact ⟨s, by simp [readSeq]⟩
  | cons len lens ih =>
      obtain ⟨s₁, hread, hget₁, h₁, hdrop, -⟩ := sysRead_of_readsFrom hget h len
      obtain ⟨s₂, hrest⟩ := ih hget₁ h₁
      refine ⟨s₂, ?_⟩
      rw [readSeq, hread, Option.bind_some, hrest, Option.map_some, hdrop, List.map_cons,
        List.sum_cons, List.take_add]

/-! ### Writing to a session file -/

/-- The entry holds this content, in a buffer with room for more or in none. -/
def RamfsEntry.Holding (e : RamfsEntry) (c : List UInt8) : Prop :=
  e.size = c.length ∧
    (e.data = none ∧ c = [] ∨
      ∃ b, e.data = some b ∧ b.bytes.length = ramfsWrMax ∧ b.bytes.take c.length = c)

theorem ramwWrite_holding {R : Ramfs} {r : RamId} {c bytes : List UInt8} {kmalloc : Option Nat}
    (h : (R r).Holding c) (hkm : kmalloc.isSome) (hroom : c.length + bytes.length ≤ ramfsWrMax) :
    ∃ e, ramwWrite R r bytes kmalloc = (Function.update R r e, (bytes.length : Int)) ∧
      e.used = (R r).used ∧ e.name = (R r).name ∧ e.Holding (c ++ bytes) := by
  obtain ⟨a, rfl⟩ := Option.isSome_iff_exists.1 hkm
  obtain ⟨hsize, hdata⟩ := h
  have hcap : ramfsWrMax ≠ 0 := by decide
  -- after the preallocation there is a buffer with the content
  obtain ⟨e₁, b, hp, he₁, hb, hlen, htake, hused, hname⟩ : ∃ e₁ b,
      (ramfsPreallocate R r ramfsWrMax (some a)).1 = Function.update R r e₁ ∧
      e₁.data = some b ∧ e₁.size = c.length ∧ b.bytes.length = ramfsWrMax ∧
      b.bytes.take c.length = c ∧ e₁.used = (R r).used ∧ e₁.name = (R r).name := by
    rcases hdata with ⟨hnone, rfl⟩ | ⟨b, hb, hlen, htake⟩
    · refine ⟨{ R r with data := some ⟨a, List.replicate ramfsWrMax 0⟩, size := 0 }, _, ?_, rfl,
        rfl, by simp, by simp, rfl, rfl⟩
      simp [ramfsPreallocate, hcap, hnone]
    · refine ⟨R r, b, ?_, hb, hsize, hlen, htake, rfl, rfl⟩
      simp [ramfsPreallocate, hcap, hb]
  have hfit : bytes.take ((2 ^ 32 + ramfsWrMax - c.length) % 2 ^ 32) = bytes := by
    refine List.take_of_length_le ?_
    unfold ramfsWrMax at hroom ⊢
    omega
  refine ⟨{ e₁ with data := some (b.append c.length bytes), size := c.length + bytes.length },
    ?_, hused, hname, ?_, Or.inr ⟨_, rfl, ?_, ?_⟩⟩
  · simp only [ramwWrite, hp, Function.update_self, he₁, hb, hfit, Function.update_idem]
  · simp
  · simp only [Buf.append, List.length_append, List.length_take, List.length_drop, hlen]
    omega
  · rw [Buf.append, htake, List.length_append, ← List.length_append, List.take_left']
    rfl

theorem writeAll_holding {s : Sys} {tid : Nat} {fd : Int} {i : Slot} {r : RamId} {V : Vfs}
    {R : Ramfs} {e : RamfsEntry} {c : List UInt8} {chunks : List (List UInt8 × Option Nat)}
    (hget : fdGet s tid fd = some i) (htype : (s.fds i).type = .ramw)
    (hfile : (s.fds i).ramfile = some r) (hvfs : s.vfs = { V with ramfs := Function.update R r e })
    (h : e.Holding c) (hkm : ∀ chunk ∈ chunks, chunk.2.isSome)
    (hroom : c.length + (chunks.flatMap fun chunk => chunk.1.take 4096).length ≤ ramfsWrMax) :
    ∃ e', writeAll s tid fd chunks = some (chunks.flatMap fun chunk => chunk.1.take 4096,
        s.setVfs { V with ramfs := Function.update R r e' }) ∧
      e'.used = e.used ∧ e'.name = e.name ∧
      e'.Holding (c ++ chunks.flatMap fun chunk => chunk.1.take 4096) := by
  induction chunks generalizing s e c with
  | nil =>
      refine ⟨e, ?_, rfl, rfl, by simpa using h⟩
      rw [writeAll, ← hvfs]
      rfl
  | cons chunk chunks ih =>
      rw [List.flatMap_cons, List.length_append] at hroom
      have hold : (s.vfs.ramfs r).Holding c := by
        rw [hvfs]
        simpa using h
      have hfit : c.length + (chunk.1.take 4096).length ≤ ramfsWrMax := by omega
      obtain ⟨e₁, hwrite, hused, hname, hhold⟩ :=
        ramwWrite_holding hold (hkm chunk List.mem_cons_self) hfit
      have hcall : sysWrite s tid fd chunk.1 chunk.2 =
          some (s.setVfs { V with ramfs := Function.update R r e₁ },
            ((chunk.1.take 4096).length : Int)) := by
        simp only [sysWrite, hget, Option.bind_some, htype, hfile, hwrite]
        rw [hvfs]
        simp
      obtain ⟨e₂, hrest, hused₂, hname₂, hhold₂⟩ := ih
        (s := s.setVfs { V with ramfs := Function.update R r e₁ }) hget htype hfile rfl hhold
        (fun k hk => hkm k (List.mem_cons_of_mem _ hk)) (by rw [List.length_append]; omega)
      have hr : s.vfs.ramfs r = e := by rw [hvfs]; simp
      rw [hr] at hused hname
      refine ⟨e₂, ?_, hused₂.trans hused, hname₂.trans hname, ?_⟩
      · rw [writeAll, hcall, Option.bind_some, hrest, Option.map_some, Int.toNat_natCast,
          List.flatMap_cons]
        have htake : chunk.1.take (chunk.1.take 4096).length = chunk.1.take 4096 := by
          rw [List.length_take, ← List.take_take, List.take_length]
        rw [htake]
        rfl
      · rw [List.flatMap_cons, ← List.append_assoc]
        exact hhold₂

/-! ### Opening -/

theorem userPath_of_path {op : Redirection} {path : List UInt8} (h : op.path = some path) :
    userPath op.cwd (some op.raw) = some path := h

/-- The slot `ramfs_creat` takes for the path. -/
theorem ramfsCreat_slot {R : Ramfs} {path : List UInt8} (hlen : path.length < ramfsNameMax)
    (h : ramfsFind R path ≠ none ∨ ramfsFree R ≠ none) :
    ∃ r e, ramfsCreat R path = (Function.update R r e, some r) ∧ e.used = true ∧ e.name = path ∧
      e.data = none ∧ e.size = 0 ∧ (entryKey (R r) = some path ∨ entryKey (R r) = none) := by
  cases hfind : ramfsFind R path with
  | some r =>
      have hkey := ramfsFind_some hfind
      obtain ⟨hused, hname⟩ := entryKey_eq_some.1 hkey
      exact ⟨r, { R r with data := none, size := 0 }, by simp [ramfsCreat, hfind], hused, hname,
        rfl, rfl, Or.inl hkey⟩
  | none =>
      obtain ⟨r, hr⟩ := Option.ne_none_iff_exists'.1 (h.resolve_left (by simp [hfind]))
      refine ⟨r, (R r).fill path, by simp [ramfsCreat, hfind, hr], rfl, ?_, rfl, rfl,
        Or.inr (ramfsFree_some hr)⟩
      exact rfStrcpy_of_short hlen

/-- The content and the size that a read reports. -/
def view (r : Option Buf × Nat) : List UInt8 × Nat := ((r.1.elim [] Buf.bytes).take r.2, r.2)

/-- The address of the read buffer does not show in what is read. -/
theorem view_vfsRead {v : Vfs} (path : List UInt8) {kmalloc kmalloc' : Option Nat}
    (hbuf : (v.buffer kmalloc).isSome) (hbuf' : (v.buffer kmalloc').isSome) :
    (vfsRead v path kmalloc).1.map view = (vfsRead v path kmalloc').1.map view := by
  obtain ⟨b, hb⟩ := Option.isSome_iff_exists.1 hbuf
  obtain ⟨b', hb'⟩ := Option.isSome_iff_exists.1 hbuf'
  unfold vfsRead
  dsimp only
  split
  · rfl
  · split
    · rfl
    · split
      · rfl
      · split
        · simp only [vfsReadExt2, hb, hb']
          generalize Ext2.readFile v.ext2 (fullPath (vfsNormPath path)) ext2BufCap = q
          obtain ⟨_ | got, t⟩ := q
          · rfl
          · simp [view, Buf.put]
        · rfl

theorem existing_eq (q : Option (Option Buf × Nat)) :
    existing q = ((q.map view).elim [] fun c => if c.2 > ramfsWrMax then [] else c.1) := by
  obtain _ | ⟨_ | b, size⟩ := q
  · rfl
  · simp [existing, view]
  · rfl

/-- The old content, as `SYS_OPENW` finds it. -/
theorem existing_vfsRead {v : Vfs} {path : List UInt8} {kmalloc : Option Nat}
    (hbuf : (v.buffer kmalloc).isSome) (hsize : sizeAt v path ≤ ext2BufCap) :
    existing (vfsRead v path kmalloc).1 = (contentAt v path).getD [] ∧
      ((contentAt v path).getD []).length ≤ sizeAt v path := by
  have hzero : (v.buffer (some 0)).isSome := by
    unfold Vfs.buffer
    cases v.ext2Buf <;> rfl
  rw [existing_eq, view_vfsRead path hbuf hzero]
  unfold sizeAt at hsize ⊢
  unfold contentAt
  generalize (vfsRead v path (some 0)).1 = q at hsize
  obtain _ | ⟨c, size⟩ := q
  · exact ⟨rfl, le_refl 0⟩
  · simp only [Option.map_some, Option.getD_some] at hsize
    have hle : ¬ size > ramfsWrMax := by
      unfold ext2BufCap at hsize
      unfold ramfsWrMax
      omega
    refine ⟨?_, ?_⟩
    · simp [view, hle]
    · simp

/-- The session file after `SYS_OPENW` holds the old content. -/
theorem reload_holding {e : RamfsEntry} (hdata : e.data = none) (a : Nat) {c : List UInt8}
    (hlen : c.length ≤ ext2BufCap) : (reload e (some a) c).Holding c := by
  by_cases hnil : c = []
  · subst hnil
    refine ⟨by simp [reload, RamfsEntry.preload],
      Or.inr ⟨⟨a, List.replicate ramfsWrMax 0⟩, ?_, ?_, ?_⟩⟩
    · simp [reload, RamfsEntry.preload]
    · simp
    · simp
  · refine ⟨by simp [reload, RamfsEntry.preload, hnil],
      Or.inr ⟨Buf.put ⟨a, List.replicate ramfsWrMax 0⟩ c, ?_, ?_, ?_⟩⟩
    · simp [reload, RamfsEntry.preload, hnil]
    · simp only [Buf.put, List.length_append, List.length_drop, List.length_replicate]
      unfold ext2BufCap at hlen
      unfold ramfsWrMax
      omega
    · simp [Buf.put]

/-- The descriptor for writing of slot `i`, on the session file `r`. -/
structure WritesTo (s : Sys) (tid : Nat) (fd : Int) (i : Slot) (r : RamId) : Prop where
  get : fdGet s tid fd = some i
  type : (s.fds i).type = .ramw
  ramfile : (s.fds i).ramfile = some r

theorem fdAllocRamw_writesTo {s : Sys} (tid : Nat) (r : RamId) {i : Slot}
    (h : freeSlot s = some i) :
    0 ≤ (fdAllocRamw s tid r).2 ∧
      WritesTo (fdAllocRamw s tid r).1 tid (fdAllocRamw s tid r).2 i r ∧
      (fdAllocRamw s tid r).1.vfs = s.vfs := by
  obtain ⟨n, hn, hnone, hfill⟩ := fdFill_some tid
    { SysFd.zero with type := .ramw, ramfile := some r } h
  have halloc : fdAllocRamw s tid r = _ := hfill
  rw [halloc]
  refine ⟨hn, ⟨fdGet_setFd_new hnone i rfl rfl rfl, ?_, ?_⟩, rfl⟩
  · rw [setFd_fds_same]
  · rw [setFd_fds_same]

/-- The content a redirection starts from. -/
def Redirection.old (op : Redirection) (v : Vfs) (path : List UInt8) : List UInt8 :=
  if op.append then (contentAt v path).getD [] else []

/-- The session file of the path is open, with the old content in it. -/
structure Session (s : Sys) (tid : Nat) (op : Redirection) (path : List UInt8) (i : Slot)
    (r : RamId) (e : RamfsEntry) : Prop where
  ok : 0 ≤ (openForWrite s tid op).2
  writes : WritesTo (openForWrite s tid op).1 tid (openForWrite s tid op).2 i r
  vfs : (openForWrite s tid op).1.vfs =
    { op.before s.vfs path with ramfs := Function.update s.vfs.ramfs r e }
  used : e.used = true
  name : e.name = path
  slot : entryKey (s.vfs.ramfs r) = some path ∨ entryKey (s.vfs.ramfs r) = none
  holds : e.Holding (op.old s.vfs path)
  creat : ∃ e', withSession s.vfs.ramfs path = Function.update s.vfs.ramfs r e' ∧ e'.used = true

theorem openForWrite_session {s : Sys} {op : Redirection} {path : List UInt8}
    (h : RedirectOk s op path) (tid : Nat) : ∃ i r e, Session s tid op path i r e := by
  obtain ⟨i, hi⟩ := h.slot
  have hpath := userPath_of_path h.resolves
  obtain ⟨r, e, hcreat, hused, hname, hdata, hsize, hslot⟩ :=
    ramfsCreat_slot (userPath_some hpath).2 h.session
  have hwith : withSession s.vfs.ramfs path = Function.update s.vfs.ramfs r e := by
    rw [withSession, hcreat]
  cases happ : op.append with
  | false =>
      have hcall : openForWrite s tid op =
          fdAllocRamw (s.setVfs { s.vfs with ramfs := Function.update s.vfs.ramfs r e }) tid r := by
        simp [openForWrite, happ, sysCreat, hpath, h.file, hcreat]
      obtain ⟨hok, hwrites, hvfs⟩ := fdAllocRamw_writesTo
        (s := s.setVfs { s.vfs with ramfs := Function.update s.vfs.ramfs r e }) tid r hi
      rw [← hcall] at hok hwrites hvfs
      refine ⟨i, r, e, hok, hwrites, ?_, hused, hname, hslot, ?_, e, hwith, hused⟩
      · rw [hvfs, Redirection.before, happ]
        rfl
      · rw [Redirection.old, happ]
        exact ⟨hsize, Or.inl ⟨hdata, rfl⟩⟩
  | true =>
      obtain ⟨hkm, hbuf⟩ := h.old happ
      obtain ⟨a, ha⟩ := Option.isSome_iff_exists.1 hkm
      have hshort := h.short
      rw [if_pos happ] at hshort
      have hsize : sizeAt s.vfs path ≤ ext2BufCap := by omega
      obtain ⟨hexisting, hlen⟩ := existing_vfsRead hbuf hsize
      have hsame := vfsRead_sameFiles s.vfs path op.oldKm
      have hcall : openForWrite s tid op =
          fdAllocRamw (s.setVfs { (vfsRead s.vfs path op.oldKm).2 with
            ramfs := Function.update s.vfs.ramfs r
              (reload e (some a) ((contentAt s.vfs path).getD [])) }) tid r := by
        rw [← preallocate_reload s.vfs.ramfs r hdata, ← hexisting, ← ha]
        simp [openForWrite, happ, sysOpenw, hpath, h.file, hsame.ramfs, hcreat]
      obtain ⟨hok, hwrites, hvfs⟩ := fdAllocRamw_writesTo
        (s := s.setVfs { (vfsRead s.vfs path op.oldKm).2 with
          ramfs := Function.update s.vfs.ramfs r
            (reload e (some a) ((contentAt s.vfs path).getD [])) }) tid r hi
      rw [← hcall] at hok hwrites hvfs
      obtain ⟨hru, hrn⟩ := reload_used e (some a) ((contentAt s.vfs path).getD [])
      refine ⟨i, r, _, hok, hwrites, ?_, hru.trans hused, hrn.trans hname, hslot, ?_, e, hwith,
        hused⟩
      · rw [hvfs, Redirection.before, happ]
        rfl
      · rw [Redirection.old, happ]
        exact reload_holding hdata a (by omega)

/-! ### Closing -/

theorem close_session {s : Sys} {tid : Nat} {fd : Int} {i : Slot} {r : RamId}
    (h : WritesTo s tid fd i r) (kmalloc : Option Nat) (now : Nat) :
    (sysClose (flushFile kmalloc now) s tid true fd).1 =
      setFd (s.setVfs (flushFile kmalloc now r s.vfs)) i SysFd.zero := by
  have haddOpen : addOpen s (s.fds i) (-1) = s := by simp [addOpen, h.type]
  simp only [sysClose, Bool.not_true, Bool.false_eq_true, if_false, fdClose, h.get, fdCloseEntry,
    haddOpen, h.type, h.ramfile]
  rfl

/-- What is handed to `vfs_write`. -/
theorem RamfsEntry.Holding.source {e : RamfsEntry} {c : List UInt8} (h : e.Holding c)
    (hc : c ≠ []) : e.source = .bytes c ∧ 0 < e.size := by
  obtain ⟨hsize, ⟨-, rfl⟩ | ⟨b, hb, -, htake⟩⟩ := h
  · exact absurd rfl hc
  · refine ⟨?_, hsize ▸ List.length_pos_of_ne_nil hc⟩
    simp [RamfsEntry.source, hb, hsize, htake]

/-- What a later `vfs_read` of the path must return. -/
def ReadsBack (v : Vfs) (path : List UInt8) (kmalloc : Option Nat) (c : List UInt8) : Prop :=
  ∃ b v', vfsRead v path kmalloc = (some (some b, c.length), v') ∧
    (c ≠ [] → ∃ bytes, v'.bytesAt b.addr = some bytes ∧ bytes.take c.length = c)

theorem flush_volume {v : Vfs} {path c : List UInt8} {op : Redirection} {r : RamId}
    (hready : v.ext2.ready = true) (hstored : Stored v path c op)
    {e : RamfsEntry} (hold : (v.ramfs r).Hidden) (hnew : e.Hidden) (hname : e.name = path)
    (hsource : e.source = .bytes c) (hsize : 0 < e.size) :
    ReadsBack (flushFile op.closeKm op.now r { v with ramfs := Function.update v.ramfs r e }) path
      op.openKm c := by
  obtain ⟨hn, hstored⟩ := hstored
  rw [if_pos hready] at hstored
  obtain ⟨hram, hinitrd, hbuf, htakes⟩ := hstored
  unfold VolumeTakes at htakes
  have hflush : flushFile op.closeKm op.now r { v with ramfs := Function.update v.ramfs r e } =
      { v with
        ramfs := Function.update v.ramfs r e
        ext2 := (Ext2.writeFile (vfsMkdirs v.ext2 (fullPath (vfsNormPath path)) op.now)
          (fullPath (vfsNormPath path)) c op.now).2 } := by
    simp [flushFile, hsize, hname, hsource, vfsWrite, hn, hready, Source.content]
  rw [hflush]
  generalize (Ext2.writeFile (vfsMkdirs v.ext2 (fullPath (vfsNormPath path)) op.now)
    (fullPath (vfsNormPath path)) c op.now).2 = X at htakes
  -- a volume that reads a file is mounted
  have hX : X.ready = true := by
    by_contra hno
    simp [Ext2.readFile, Bool.not_eq_true _ ▸ hno] at htakes
  obtain ⟨buf, hb⟩ := Option.isSome_iff_exists.1 hbuf
  have hget : ramfsGet (Function.update v.ramfs r e) (vfsNormPath path) = none := by
    rw [ramfsGet_update_hidden hold hnew (vfsNormPath_head path), hram]
  obtain ⟨t, ht⟩ : ∃ t, Ext2.readFile X (fullPath (vfsNormPath path)) ext2BufCap = (some c, t) :=
    ⟨_, Prod.ext htakes rfl⟩
  have hb' : Vfs.buffer { v with ramfs := Function.update v.ramfs r e, ext2 := X } op.openKm =
      some buf := hb
  refine ⟨buf.put c, { v with
    ramfs := Function.update v.ramfs r e, ext2 := t, ext2Buf := some (buf.put c) }, ?_,
    fun _ => ⟨(buf.put c).bytes, ?_, ?_⟩⟩
  · simp only [vfsRead, hn, if_false, hget, hinitrd, hX, if_true, vfsReadExt2, hb', ht]
  · simp [Vfs.bytesAt, Vfs.buffers]
  · simp [Buf.put]

/-- A name is found in the slot it was just stored in. -/
theorem ramfsFind_update_slot {R : Ramfs} {n : List UInt8} {q : RamId} {e : RamfsEntry}
    (hused : e.used = true) (hname : e.name = n)
    (hq : ramfsFind R n = some q ∨ ramfsFind R n = none ∧ ramfsFree R = some q) :
    ramfsFind (Function.update R q e) n = some q := by
  rcases hq with hfind | ⟨hfind, -⟩
  · obtain ⟨hold, hn⟩ := entryKey_eq_some.1 (ramfsFind_some hfind)
    rw [← hfind]
    refine List.find?_congr fun j _ => ?_
    by_cases hj : j = q
    · subst hj
      rw [Function.update_self, hused, hname, hold, hn]
    · rw [Function.update_of_ne hj]
  · refine find?_finRange_eq ?_ ?_
    · rw [Function.update_self, Bool.and_eq_true]
      exact ⟨hused, (rfStreq_iff _ _).2 hname⟩
    · intro j hj
      by_contra hne
      rw [Function.update_of_ne hne, Bool.and_eq_true] at hj
      exact ramfsFind_none_iff.1 hfind j (entryKey_eq_some.2 ⟨hj.1, (rfStreq_iff _ _).1 hj.2⟩)

/-- The slot `ramfs_write` stores in, if it gets a buffer. -/
theorem ramfsWrite_slot {R : Ramfs} {n c : List UInt8} (hlen : n.length < ramfsNameMax)
    (hslot : ramfsFind R n ≠ none ∨ ramfsFree R ≠ none) (hc : c ≠ []) (kmalloc : Option Nat) :
    ∃ q e, (ramfsWrite R n (.bytes c) kmalloc).1 = Function.update R q e ∧ e.used = true ∧
      e.name = n ∧ e.data = kmalloc.map (⟨·, c⟩) ∧ (kmalloc.isSome → e.size = c.length) ∧
      (ramfsFind R n = some q ∨ ramfsFind R n = none ∧ ramfsFree R = some q) := by
  cases hfind : ramfsFind R n with
  | some q =>
      obtain ⟨hused, hname⟩ := entryKey_eq_some.1 (ramfsFind_some hfind)
      cases kmalloc with
      | none =>
          refine ⟨q, { R q with data := none }, ?_, hused, hname, rfl, nofun, Or.inl rfl⟩
          simp [ramfsWrite, Source.isBad, ramfsWriteSlot, hfind, RamfsEntry.store, Source.len, hc]
      | some a =>
          refine ⟨q, { R q with data := some ⟨a, c⟩, size := c.length }, ?_, hused, hname, rfl,
            fun _ => rfl, Or.inl rfl⟩
          simp [ramfsWrite, Source.isBad, ramfsWriteSlot, hfind, RamfsEntry.store, Source.len, hc,
            Source.content]
  | none =>
      obtain ⟨q, hq⟩ := Option.ne_none_iff_exists'.1 (hslot.resolve_left (by simp [hfind]))
      have hname : ((R q).fill n).name = n := rfStrcpy_of_short hlen
      cases kmalloc with
      | none =>
          refine ⟨q, (R q).fill n, ?_, rfl, hname, rfl, nofun, Or.inr ⟨rfl, hq⟩⟩
          simp [ramfsWrite, Source.isBad, ramfsWriteSlot, hfind, hq, RamfsEntry.store, Source.len,
            hc, RamfsEntry.fill, RamfsEntry.rename]
      | some a =>
          refine ⟨q, { (R q).fill n with data := some ⟨a, c⟩, size := c.length }, ?_, rfl, hname,
            rfl, fun _ => rfl, Or.inr ⟨rfl, hq⟩⟩
          simp [ramfsWrite, Source.isBad, ramfsWriteSlot, hfind, hq, RamfsEntry.store, Source.len,
            hc, Source.content]

/-- A new buffer is found at its address. -/
theorem bytesAt_new {v : Vfs} {b : Buf} (hmem : b ∈ v.buffers)
    (honly : ∀ b' ∈ v.buffers, b'.addr = b.addr → b' = b) :
    v.bytesAt b.addr = some b.bytes := by
  unfold Vfs.bytesAt
  cases hf : v.buffers.find? fun b' => b'.addr == b.addr with
  | none =>
      have hno := List.find?_eq_none.1 hf b hmem
      exact absurd (beq_self_eq_true _) hno
  | some b' =>
      have haddr := List.find?_some hf
      rw [honly b' (List.mem_of_find?_eq_some hf) (by simpa using haddr)]
      rfl

theorem mem_buffers {v : Vfs} {b : Buf} :
    b ∈ v.buffers ↔ v.ext2Buf = some b ∨ (∃ f ∈ v.initrd, f.data = b) ∨
      ∃ r, (v.ramfs r).used = true ∧ (v.ramfs r).name.head? ≠ some slash ∧
        (v.ramfs r).data = some b := by
  unfold Vfs.buffers
  rw [List.mem_append, List.mem_append, List.mem_map, List.mem_filterMap, Option.mem_toList,
    or_assoc]
  refine or_congr Iff.rfl (or_congr Iff.rfl (exists_congr fun r => ?_))
  cases hu : (v.ramfs r).used <;> by_cases hs : (v.ramfs r).name.head? = some slash <;>
    simp [hu, hs, List.mem_finRange]

theorem flush_ramfs {v : Vfs} {path c : List UInt8} {op : Redirection} {r : RamId}
    (hready : v.ext2.ready = false) (hstored : Stored v path c op)
    (hlen : path.length < ramfsNameMax) (hc : c ≠ []) {e e' : RamfsEntry}
    (hwith : withSession v.ramfs path = Function.update v.ramfs r e') (hused' : e'.used = true)
    (hused : e.used = true) (hold : (v.ramfs r).Hidden) (hnew : e.name.head? = some slash)
    (hname : e.name = path) (hsource : e.source = .bytes c) (hsize : 0 < e.size) :
    ReadsBack (flushFile op.closeKm op.now r { v with ramfs := Function.update v.ramfs r e }) path
      op.openKm c := by
  obtain ⟨hn, hstored⟩ := hstored
  rw [if_neg (by simp [hready])] at hstored
  obtain ⟨hroom, a, ha, hfresh⟩ := hstored
  have hnlen : (vfsNormPath path).length < ramfsNameMax :=
    lt_of_le_of_lt (List.dropWhile_suffix _).length_le hlen
  have hfind := ramfsFind_update_hidden hold (Or.inr hnew) (vfsNormPath_head path)
  have hfree : ramfsFree (Function.update v.ramfs r e) = ramfsFree (withSession v.ramfs path) := by
    rw [hwith]
    refine List.find?_congr fun j _ => ?_
    by_cases hj : j = r
    · subst hj
      rw [Function.update_self, Function.update_self, hused, hused']
    · rw [Function.update_of_ne hj, Function.update_of_ne hj]
  rw [← hfree, ← hfind] at hroom
  obtain ⟨q, e₂, hwrite, hused₂, hname₂, hdata₂, hsize₂, hq⟩ :=
    ramfsWrite_slot hnlen hroom hc (some a)
  have hq' := ramfsFind_update_slot hused₂ hname₂ hq
  have hflush : flushFile op.closeKm op.now r { v with ramfs := Function.update v.ramfs r e } =
      { v with ramfs := Function.update (Function.update v.ramfs r e) q e₂ } := by
    rw [← hwrite]
    simp [flushFile, hsize, hname, hsource, vfsWrite, hn, hready, ha]
  rw [hflush]
  have hget : ramfsGet (Function.update (Function.update v.ramfs r e) q e₂) (vfsNormPath path) =
      some (some ⟨a, c⟩, c.length) := by
    rw [ramfsGet, hq', Option.map_some, Function.update_self, hdata₂, hsize₂ rfl, Option.map_some]
  refine ⟨⟨a, c⟩, { v with ramfs := Function.update (Function.update v.ramfs r e) q e₂ }, ?_,
    fun _ => ⟨c, ?_, List.take_length⟩⟩
  · simp only [vfsRead, hn, if_false, hget]
  · refine bytesAt_new (b := ⟨a, c⟩) (mem_buffers.2 (Or.inr (Or.inr ⟨q, ?_⟩))) ?_
    · simp only [Function.update_self]
      exact ⟨hused₂, hname₂ ▸ vfsNormPath_head path, hdata₂⟩
    · intro b hb haddr
      rcases mem_buffers.1 hb with hext | hinit | ⟨k, hku, hks, hkd⟩
      · exact absurd haddr (hfresh b (mem_buffers.2 (Or.inl hext)))
      · exact absurd haddr (hfresh b (mem_buffers.2 (Or.inr (Or.inl hinit))))
      · by_cases hk : k = q
        · subst hk
          simp only [Function.update_self, hdata₂, Option.map_some, Option.some.injEq] at hkd
          exact hkd.symm
        · simp only [Function.update_of_ne hk] at hku hks hkd
          by_cases hkr : k = r
          · subst hkr
            simp only [Function.update_self] at hks
            exact absurd hnew hks
          · simp only [Function.update_of_ne hkr] at hku hks hkd
            -- any other buffer was there before, and the freed one is not among them
            refine absurd haddr (hfresh b (mem_buffers.2 (Or.inr (Or.inr ⟨k, ?_⟩))))
            have hkeep : (ramfsDelete v.ramfs (vfsNormPath path)).1 k = v.ramfs k := by
              unfold ramfsDelete
              rw [hfind] at hq
              rcases hq with hq | ⟨hq, -⟩
              · rw [hq]
                exact Function.update_of_ne hk _ _
              · rw [hq]
            simp only [hkeep]
            exact ⟨hku, hks, hkd⟩

/-! ### Nothing to store -/

/-- A read that finds a file finds one of the same size in layers with the same
files. -/
theorem vfsRead_layers {v : Vfs} (v' : Vfs) {path : List UInt8} {kmalloc : Option Nat}
    (hram : ∀ n, n.head? ≠ some slash → ramfsGet v'.ramfs n = ramfsGet v.ramfs n)
    (hinitrd : v'.initrd = v.initrd) (hext2 : v.ext2.Reads v'.ext2)
    (hbuf : (v.buffer kmalloc).isSome → (v'.buffer kmalloc).isSome) {b : Buf} {size : Nat}
    (h : (vfsRead v path kmalloc).1 = some (some b, size)) :
    ∃ b' v'', vfsRead v' path kmalloc = (some (some b', size), v'') := by
  unfold vfsRead at h ⊢
  dsimp only at h ⊢
  rw [hram _ (vfsNormPath_head path), hinitrd, hext2.ready]
  by_cases hn : vfsNormPath path = []
  · simp [hn] at h
  · rw [if_neg hn] at h ⊢
    cases hget : ramfsGet v.ramfs (vfsNormPath path) with
    | some f =>
        rw [hget] at h
        exact ⟨b, v', by rw [← h]⟩
    | none =>
        cases hini : initrdGet v.initrd (vfsNormPath path) with
        | some f =>
            rw [hget, hini] at h
            exact ⟨b, v', by rw [← h]⟩
        | none =>
            rw [hget, hini] at h
            dsimp only at h ⊢
            split at h
            · rename_i hready
              rw [if_pos hready]
              unfold vfsReadExt2 at h ⊢
              cases hb : v.buffer kmalloc with
              | none => simp [hb] at h
              | some buf =>
                  obtain ⟨buf', hb'⟩ := Option.isSome_iff_exists.1 (hbuf (by simp [hb]))
                  have hread := Ext2.readFile_congr hext2 (fullPath (vfsNormPath path)) ext2BufCap
                  rw [hb] at h
                  rw [hb']
                  dsimp only at h ⊢
                  generalize Ext2.readFile v.ext2 (fullPath (vfsNormPath path)) ext2BufCap = q
                    at h hread
                  generalize Ext2.readFile v'.ext2 (fullPath (vfsNormPath path)) ext2BufCap = q'
                    at hread
                  obtain ⟨_ | got, t⟩ := q
                  · cases h
                  · obtain ⟨_ | got', t'⟩ := q'
                    · cases hread
                    · simp only [Option.some.injEq] at hread
                      subst hread
                      simp only [Option.some.injEq, Prod.mk.injEq] at h
                      rw [← h.2]
                      exact ⟨_, _, rfl⟩
            · cases h

/-- Reading keeps the buffer. -/
theorem buffer_vfsRead {v : Vfs} (path : List UInt8) (kmalloc : Option Nat)
    {kmalloc' : Option Nat} (h : (v.buffer kmalloc').isSome) :
    ((vfsRead v path kmalloc).2.buffer kmalloc').isSome := by
  have hset : ∀ (v' : Vfs) (b : Buf), v'.ext2Buf = some b → (v'.buffer kmalloc').isSome := by
    intro v' b hb
    simp [Vfs.buffer, hb]
  unfold vfsRead
  dsimp only
  split
  · exact h
  · split
    · exact h
    · split
      · exact h
      · split
        · unfold vfsReadExt2
          split
          · exact h
          · split
            · exact hset _ _ rfl
            · exact hset _ _ rfl
        · exact h

theorem before_sameFiles (op : Redirection) (v : Vfs) (path : List UInt8) :
    SameFiles v (op.before v path) := by
  unfold Redirection.before
  split
  · exact vfsRead_sameFiles v path op.oldKm
  · exact ⟨rfl, rfl, .refl⟩

theorem flush_empty {v : Vfs} {path : List UInt8} {op : Redirection} {r : RamId} {e : RamfsEntry}
    (hempty : AlreadyEmpty v path op) (hold : (v.ramfs r).Hidden) (hnew : e.Hidden)
    (hsize : e.size = 0) :
    ReadsBack (flushFile op.closeKm op.now r
      { op.before v path with ramfs := Function.update v.ramfs r e }) path op.openKm [] := by
  have hsame := before_sameFiles op v path
  have hflush : flushFile op.closeKm op.now r
      { op.before v path with ramfs := Function.update v.ramfs r e } =
      { op.before v path with ramfs := Function.update v.ramfs r e } := by
    simp [flushFile, hsize]
  rw [hflush]
  obtain ⟨b, hb⟩ := hempty
  have hbuf : (v.buffer op.openKm).isSome → ((op.before v path).buffer op.openKm).isSome := by
    intro hbuf
    unfold Redirection.before
    split
    · exact buffer_vfsRead path op.oldKm hbuf
    · exact hbuf
  have hread : ∃ b' v', vfsRead { op.before v path with ramfs := Function.update v.ramfs r e }
      path op.openKm = (some (some b', 0), v') :=
    vfsRead_layers { op.before v path with ramfs := Function.update v.ramfs r e }
      (fun n hn => ramfsGet_update_hidden hold hnew hn) hsame.initrd hsame.ext2 hbuf hb
  obtain ⟨b', v', hread⟩ := hread
  exact ⟨b', v', hread, fun h => absurd rfl h⟩

/-! ### The whole sequence -/

theorem readBack_readsBack {s : Sys} {op : Redirection} {path c : List UInt8}
    (hpath : op.path = some path) (hfile : isDevnull path = false) {i : Slot}
    (hfree : (s.fds i).used = false) (h : ReadsBack s.vfs path op.openKm c) (tid : Nat) :
    ∃ s', readBack s tid op = some (c.take op.asked, s') := by
  obtain ⟨b, v, hread, hbytes⟩ := h
  obtain ⟨j, hj⟩ : ∃ j, freeSlot (s.setVfs v) = some j := by
    rw [← Option.isSome_iff_exists, ← Option.ne_none_iff_isSome]
    intro hnone
    have hall := (freeSlot_none_iff _).1 hnone i
    rw [Sys.setVfs, hfree] at hall
    cases hall
  obtain ⟨n, hn, hnone, hfill⟩ := fdFill_some tid
    { SysFd.zero with type := .file, data := b.addr, size := c.length } hj
  have hopen : sysOpen s tid op.cwd (some op.raw) op.openKm =
      fdAlloc (s.setVfs v) tid b.addr c.length := by
    simp [sysOpen, userPath_of_path hpath, hfile, hread]
  rw [fdAlloc, hfill] at hopen
  have hreads : ReadsFrom (setFd (s.setVfs v) j ⟨true, n, tid, .file, b.addr, c.length, 0, none,
      none⟩) j c := by
    refine ⟨by rw [setFd_fds_same], by rw [setFd_fds_same], ?_⟩
    rw [setFd_fds_same]
    intro hpos
    exact hbytes (List.ne_nil_of_length_pos hpos)
  obtain ⟨s', hseq⟩ := readSeq_of_readsFrom (fdGet_setFd_new hnone j rfl rfl rfl) hreads op.lens
  rw [setFd_fds_same, List.drop_zero] at hseq
  refine ⟨(sysClose (flushFile none 0) s' tid true n).1, ?_⟩
  unfold readBack
  rw [hopen]
  dsimp only
  rw [if_neg (not_lt.2 hn)]
  exact congrArg (Option.map _) hseq

theorem Session.hidden {s : Sys} {tid : Nat} {op : Redirection} {path : List UInt8} {i : Slot}
    {r : RamId} {e : RamfsEntry} (h : Session s tid op path i r e)
    (hhead : path.head? = some slash) : (s.vfs.ramfs r).Hidden := by
  rcases h.slot with hkey | hkey
  · exact Or.inr ((entryKey_eq_some.1 hkey).2 ▸ hhead)
  · refine Or.inl ?_
    by_contra hused
    simp [entryKey, hused] at hkey

/-- All of it fits the session buffer. -/
theorem RedirectOk.room {s : Sys} {op : Redirection} {path : List UInt8}
    (h : RedirectOk s op path) :
    (op.old s.vfs path).length + op.written.length ≤ ramfsWrMax := by
  have hcap : ext2BufCap ≤ ramfsWrMax := by decide
  have hshort := h.short
  unfold Redirection.old
  cases happ : op.append with
  | false =>
      simp only [happ, Bool.false_eq_true, if_false] at hshort
      simp only [Bool.false_eq_true, if_false, List.length_nil]
      omega
  | true =>
      simp only [happ, if_true] at hshort
      have hsize : sizeAt s.vfs path ≤ ext2BufCap := by omega
      have hle := (existing_vfsRead (h.old happ).2 hsize).2
      simp only [if_true]
      omega

/-- A redirection that meets the conditions is a round trip. -/
theorem redirectOk_roundTrips {s : Sys} {op : Redirection} {path : List UInt8}
    (h : RedirectOk s op path) (tid : Nat) : RoundTrips s tid op := by
  obtain ⟨i, r, e, hses⟩ := openForWrite_session h tid
  obtain ⟨hhead, hlen⟩ := userPath_some (userPath_of_path h.resolves)
  have hold := hses.hidden hhead
  have hsame := before_sameFiles op s.vfs path
  have hexp : op.expected s.vfs path = op.old s.vfs path ++ op.written := rfl
  have hroom := h.room
  obtain ⟨e', hwrite, hused, hname, hholds⟩ := writeAll_holding hses.writes.get hses.writes.type
    hses.writes.ramfile hses.vfs hses.holds h.memory hroom
  rw [hses.used] at hused
  rw [hses.name] at hname
  have hnew : e'.name.head? = some slash := hname ▸ hhead
  have hback : ReadsBack (flushFile op.closeKm op.now r { op.before s.vfs path with
      ramfs := Function.update s.vfs.ramfs r e' }) path op.openKm (op.expected s.vfs path) := by
    by_cases hnil : op.expected s.vfs path = []
    · rw [hnil]
      rw [hexp] at hnil
      refine flush_empty (h.empty hnil) hold (Or.inr hnew) ?_
      rw [hholds.1]
      exact congrArg List.length hnil
    · obtain ⟨hsource, hsize⟩ := RamfsEntry.Holding.source hholds hnil
      have hstored := h.stored hnil
      rw [← hsame.ramfs] at hold ⊢
      cases hready : (op.before s.vfs path).ext2.ready with
      | true =>
          exact flush_volume hready hstored hold (Or.inr hnew) hname hsource hsize
      | false =>
          obtain ⟨e₁, hwith, hused₁⟩ := hses.creat
          rw [← hsame.ramfs] at hwith
          exact flush_ramfs hready hstored hlen hnil hwith hused₁ hused hold hnew hname hsource
            hsize
  -- the descriptor is found through all of this, and closing it frees its slot
  have hwrites : WritesTo ((openForWrite s tid op).1.setVfs { op.before s.vfs path with
      ramfs := Function.update s.vfs.ramfs r e' }) tid (openForWrite s tid op).2 i r :=
    ⟨hses.writes.get, hses.writes.type, hses.writes.ramfile⟩
  have hclose := close_session hwrites op.closeKm op.now
  obtain ⟨s', hread⟩ := readBack_readsBack (s := (sysClose (flushFile op.closeKm op.now)
    ((openForWrite s tid op).1.setVfs { op.before s.vfs path with
      ramfs := Function.update s.vfs.ramfs r e' }) tid true (openForWrite s tid op).2).1)
    h.resolves h.file (by rw [hclose, setFd_fds_same]; rfl) (by rw [hclose]; exact hback) tid
  refine ⟨path, s', h.resolves, ?_⟩
  unfold roundTrip
  dsimp only
  rw [if_neg (not_lt.2 hses.ok), hwrite, Option.bind_some]
  dsimp only
  rw [hread]
  rfl

/-! ### One after another -/

/-- The state after a redirection by a thread. -/
def redirect (s : Sys) (c : Nat × Redirection) : Sys :=
  (roundTrip s c.1 c.2).elim s fun q => q.2.2

/-- In every run of redirections that all meet the conditions, each of them is a
round trip, however many there are. -/
theorem roundTrips_run {s : Sys} {cs : List (Nat × Redirection)}
    (h : AllSteps redirect (fun s c => ∃ path, RedirectOk s c.2 path) s cs) :
    ∀ pre c, pre ++ [c] <+: cs → RoundTrips (run redirect s pre) c.1 c.2 := by
  rintro pre c ⟨post, rfl⟩
  rw [List.append_assoc, allSteps_append] at h
  obtain ⟨path, hok⟩ := h.2.1
  exact redirectOk_roundTrips hok c.1

/-- One byte to `/a`, without a disk. -/
theorem roundTrips_one_byte :
    let op : Redirection :=
      ⟨false, [slash], [slash, 97], [([1], some 4096)], [1], none, none, some 8192, none, 0⟩
    RoundTrips (run redirect (Tables.init (Vfs.boot [])) []) 1 op := by
  intro op
  have hok : RedirectOk (Tables.init (Vfs.boot [])) op [slash, 97] :=
    { resolves := by decide
      file := by decide
      slot := ⟨⟨0, by decide⟩, by decide⟩
      session := Or.inr (by decide)
      memory := by decide
      old := by decide
      short := by decide
      stored := fun _ => ⟨by decide, Or.inr (by decide), 8192, rfl, by decide⟩
      empty := fun h => absurd h (by decide) }
  have hall : AllSteps redirect (fun s c => ∃ path, RedirectOk s c.2 path)
      (Tables.init (Vfs.boot [])) [(1, op)] := ⟨⟨_, hok⟩, trivial⟩
  exact roundTrips_run hall [] (1, op) (List.prefix_refl _)

/-- Nothing is written to the new path `/a`: closing it stores nothing, and it cannot
be opened. -/
theorem roundTrips_empty_file :
    let op : Redirection := ⟨false, [slash], [slash, 97], [], [1], none, none, some 8192, none, 0⟩
    ¬ RoundTrips (Tables.init (Vfs.boot [])) 1 op := by
  rintro op ⟨path, s', -, hround⟩
  have hnone : (roundTrip (Tables.init (Vfs.boot [])) 1 op).isNone = true := by decide
  rw [hround] at hnone
  cases hnone

end FiFi.Vfs
