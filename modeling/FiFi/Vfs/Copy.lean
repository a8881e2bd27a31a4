import FiFi.Vfs.RoundTrip

/-!
# Copying a file

The builtin `cp` of `ush` reads the source with one `SYS_READFILE`, creates the
destination, hands the bytes to one `SYS_WRITE` and closes the descriptor. It looks
at the results of the first two calls only. `SYS_WRITE` takes at most 4096 bytes, and
closing stores nothing for an empty file, so what a later read of the destination
finds is the source only for short sources that are not empty, and only if the layer
that takes the bytes is the one that is read.
-/

namespace FiFi.Vfs

open FiFi.Fd

/-! ### The command -/

/-- `sizeof(cat_buf) - 1`. -/
def catBufCap : Nat := 64 * 1024 - 1

/-- `SYS_READFILE` with a buffer of `cap` bytes. -/
def sysReadfile (v : Vfs) (cwd : List UInt8) (raw : Option (List UInt8)) (cap : Nat)
    (kmalloc : Option Nat) : Option (List UInt8) × Vfs :=
  match userPath cwd raw with
  | none => (none, v)
  | some path =>
      match vfsRead v path kmalloc with
      | (some (some b, size), v) => (some (b.bytes.take (min size cap)), v)
      | (_, v) => (none, v)

/-- The arguments of the command, and what it meets: the results of `kmalloc` while
the source is read, while the destination is written and while it is closed. -/
structure Cp where
  cwd : List UInt8
  src : Option (List UInt8)
  dst : Option (List UInt8)
  readKm : Option Nat
  writeKm : Option Nat
  closeKm : Option Nat
  now : Nat

/-- What the command prints. -/
inductive CpMessage
  | cannotRead
  | cannotCreate
  | nothing
  deriving DecidableEq, Repr

/-- The builtin `cp`. -/
def cp (s : Sys) (tid : Nat) (op : Cp) : CpMessage × Sys :=
  match sysReadfile s.vfs op.cwd op.src catBufCap op.readKm with
  | (none, v) => (.cannotRead, s.setVfs v)
  | (some catBuf, v) =>
      let r := sysCreat (s.setVfs v) tid op.cwd op.dst
      if r.2 < 0 then (.cannotCreate, r.1)
      else
        let t := (sysWrite r.1 tid r.2 catBuf op.writeKm).elim r.1 Prod.fst
        (.nothing, (sysClose (flushFile op.closeKm op.now) t tid true r.2).1)

/-! ### The claim -/

/-- The file that a read of the path hands out, when there is memory for it. -/
def fileAt (v : Vfs) (path : List UInt8) : Option (List UInt8) :=
  (vfsRead v path (some 0)).1.bind fun r => r.1.map fun b => b.bytes.take r.2

/-- The source is a file of fewer than 64 KiB with this content, and reading it
leaves the layers `v`. -/
def Cp.Source (op : Cp) (s : Sys) (content : List UInt8) (v : Vfs) : Prop :=
  ∃ path b size, userPath op.cwd op.src = some path ∧
    vfsRead s.vfs path op.readKm = (some (some b, size), v) ∧ size < 64 * 1024 ∧
    content = b.bytes.take size

/-- If the command prints nothing, the destination is then a file with this
content. -/
def CpCopies (s : Sys) (tid : Nat) (op : Cp) (content : List UInt8) : Prop :=
  (cp s tid op).1 = .nothing →
    ∀ path, userPath op.cwd op.dst = some path → fileAt (cp s tid op).2.vfs path = some content

/-! ### When it copies -/

/-- There is a descriptor and a session file for the destination. -/
def CanCreate (s : Sys) (path : List UInt8) : Prop :=
  freeSlot s ≠ none ∧ (isDevnull path = true ∨ ramfsFind s.vfs.ramfs path ≠ none ∨
    ramfsFree s.vfs.ramfs ≠ none)

/-- The destination gets the content, or has it already where it is looked for. -/
def Arrives (v : Vfs) (path : List UInt8) (op : Cp) (content : List UInt8) : Prop :=
  let n := vfsNormPath path
  -- nothing reaches `vfs_write`
  if isDevnull path = true ∨ content = [] ∨ op.writeKm = none then fileAt v path = some content
  else if v.ext2.ready then
    -- the volume is behind the other layers
    if ramfsGet v.ramfs n = none ∧ initrdGet v.initrd n = none then
      n ≠ [] ∧ (Ext2.readFile (Ext2.writeFile (vfsMkdirs v.ext2 (fullPath n) op.now) (fullPath n)
        (content.take 4096) op.now).2 (fullPath n) ext2BufCap).1 = some content
    else fileAt v path = some content
  else if n ≠ [] ∧ (ramfsFind v.ramfs n ≠ none ∨ ramfsFree (withSession v.ramfs path) ≠ none) then
    op.closeKm.isSome ∧ content.length ≤ 4096
  else fileAt v path = some content

/-! ### Reading -/

theorem fileAt_eq (v : Vfs) (path : List UInt8) :
    fileAt v path =
      if vfsNormPath path = [] then none
      else
        match ramfsGet v.ramfs (vfsNormPath path), initrdGet v.initrd (vfsNormPath path) with
        | some r, _ => r.1.map fun b => b.bytes.take r.2
        | none, some r => r.1.map fun b => b.bytes.take r.2
        | none, none => (Ext2.readFile v.ext2 (fullPath (vfsNormPath path)) ext2BufCap).1 := by
  unfold fileAt vfsRead
  dsimp only
  split
  · rfl
  · cases ramfsGet v.ramfs (vfsNormPath path) with
    | some r => rfl
    | none =>
        cases initrdGet v.initrd (vfsNormPath path) with
        | some r => rfl
        | none =>
            dsimp only
            cases hready : v.ext2.ready with
            | true =>
                obtain ⟨b, hb⟩ : ∃ b, v.buffer (some 0) = some b := by
                  unfold Vfs.buffer
                  cases v.ext2Buf <;> simp
                simp only [if_true, vfsReadExt2, hb]
                generalize Ext2.readFile v.ext2 (fullPath (vfsNormPath path)) ext2BufCap = q
                obtain ⟨_ | got, t⟩ := q
                · rfl
                · simp [Buf.put]
            | false => simp [Ext2.readFile, hready]

theorem fileAt_congr {v v' : Vfs} {path : List UInt8}
    (hram : ramfsGet v'.ramfs (vfsNormPath path) = ramfsGet v.ramfs (vfsNormPath path))
    (hinitrd : v'.initrd = v.initrd) (hext2 : v'.ext2 = v.ext2) :
    fileAt v' path = fileAt v path := by
  rw [fileAt_eq, fileAt_eq, hram, hinitrd, hext2]

/-! ### Storing -/

section Flush

variable {v : Vfs} {path : List UInt8} {r : RamId} {e : RamfsEntry}

theorem fileAt_update_hidden (h : (v.ramfs r).Hidden) (h' : e.Hidden) :
    fileAt { v with ramfs := Function.update v.ramfs r e } path = fileAt v path :=
  fileAt_congr (ramfsGet_update_hidden h h' (vfsNormPath_head path)) rfl rfl

/-- What is found after a write to the session files. -/
theorem fileAt_ramfsWrite {c : List UInt8} (hlen : path.length < ramfsNameMax)
    (hn : vfsNormPath path ≠ []) (hc : c ≠ [])
    (hslot : ramfsFind v.ramfs (vfsNormPath path) ≠ none ∨ ramfsFree v.ramfs ≠ none)
    (kmalloc : Option Nat) :
    fileAt { v with ramfs := (ramfsWrite v.ramfs (vfsNormPath path) (.bytes c) kmalloc).1 } path =
      kmalloc.map fun _ => c := by
  have hnlen : (vfsNormPath path).length < ramfsNameMax :=
    lt_of_le_of_lt (List.dropWhile_suffix _).length_le hlen
  obtain ⟨q, e, hwrite, hused, hname, hdata, hsize, hq⟩ := ramfsWrite_slot hnlen hslot hc kmalloc
  have hget : ramfsGet (Function.update v.ramfs q e) (vfsNormPath path) =
      some (e.data, e.size) := by
    rw [ramfsGet, ramfsFind_update_slot hused hname hq, Option.map_some, Function.update_self]
  rw [hwrite, fileAt_eq, if_neg hn, hget]
  cases kmalloc with
  | none => simp [hdata]
  | some a => simp [hdata, hsize rfl]

/-- What is found after a write to the volume. -/
theorem fileAt_volume (ext2 : Ext2.Fs) (hn : vfsNormPath path ≠ []) :
    fileAt { v with ext2 := ext2 } path =
      if ramfsGet v.ramfs (vfsNormPath path) = none ∧ initrdGet v.initrd (vfsNormPath path) = none
      then (Ext2.readFile ext2 (fullPath (vfsNormPath path)) ext2BufCap).1
      else fileAt v path := by
  rw [fileAt_eq, fileAt_eq, if_neg hn, if_neg hn]
  cases hram : ramfsGet v.ramfs (vfsNormPath path) with
  | some q => simp
  | none =>
      cases hinitrd : initrdGet v.initrd (vfsNormPath path) with
      | some q => simp
      | none => simp

/-- What is found at the path when its session file, with the content `w`, has been
closed. -/
theorem fileAt_flush {w : List UInt8} (hold : (v.ramfs r).Hidden) (hused : e.used = true)
    (hname : e.name = path) (hhead : path.head? = some slash) (hlen : path.length < ramfsNameMax)
    (hwith : ramfsFree (Function.update v.ramfs r e) = ramfsFree (withSession v.ramfs path))
    (hw : e.Holding w) (hne : w ≠ []) (kmalloc : Option Nat) (now : Nat) :
    fileAt (flushFile kmalloc now r { v with ramfs := Function.update v.ramfs r e }) path =
      if vfsNormPath path = [] then none
      else if v.ext2.ready then
        if ramfsGet v.ramfs (vfsNormPath path) = none ∧ initrdGet v.initrd (vfsNormPath path) = none
        then (Ext2.readFile (Ext2.writeFile (vfsMkdirs v.ext2 (fullPath (vfsNormPath path)) now)
          (fullPath (vfsNormPath path)) w now).2 (fullPath (vfsNormPath path)) ext2BufCap).1
        else fileAt v path
      else if ramfsFind v.ramfs (vfsNormPath path) ≠ none ∨
          ramfsFree (withSession v.ramfs path) ≠ none then kmalloc.map fun _ => w
      else fileAt v path := by
  obtain ⟨hsource, hsize⟩ := hw.source hne
  have hnew : e.Hidden := Or.inr (hname ▸ hhead)
  have hhid := vfsNormPath_head path
  have hflush : flushFile kmalloc now r { v with ramfs := Function.update v.ramfs r e } =
      (vfsWrite { v with ramfs := Function.update v.ramfs r e } path (.bytes w) kmalloc now).2 := by
    simp [flushFile, hsize, hname, hsource]
  rw [hflush]
  by_cases hn : vfsNormPath path = []
  · rw [if_pos hn, fileAt_eq, if_pos hn]
  · rw [if_neg hn]
    simp only [vfsWrite, if_neg hn]
    cases hready : v.ext2.ready with
    | true =>
        simp only [if_true, Source.content]
        rw [fileAt_volume (v := { v with ramfs := Function.update v.ramfs r e }) _ hn,
          fileAt_update_hidden hold hnew]
        simp only [ramfsGet_update_hidden hold hnew hhid]
    | false =>
        simp only [Bool.false_eq_true, if_false]
        rw [← ramfsFind_update_hidden hold hnew hhid, ← hwith]
        by_cases hslot : ramfsFind (Function.update v.ramfs r e) (vfsNormPath path) ≠ none ∨
            ramfsFree (Function.update v.ramfs r e) ≠ none
        · rw [if_pos hslot]
          exact fileAt_ramfsWrite (v := { v with ramfs := Function.update v.ramfs r e }) hlen hn hne
            hslot kmalloc
        · rw [if_neg hslot]
          push Not at hslot
          have hsame : (ramfsWrite (Function.update v.ramfs r e) (vfsNormPath path) (.bytes w)
              kmalloc).1 = Function.update v.ramfs r e := by
            simp [ramfsWrite, Source.isBad, ramfsWriteSlot, hslot.1, hslot.2]
          rw [hsame]
          exact fileAt_update_hidden hold hnew

end Flush

/-! ### The calls of the command -/

theorem sysReadfile_source {s : Sys} {op : Cp} {content : List UInt8} {v : Vfs}
    (h : op.Source s content v) :
    sysReadfile s.vfs op.cwd op.src catBufCap op.readKm = (some content, v) := by
  obtain ⟨path, b, size, hpath, hread, hsize, rfl⟩ := h
  have hmin : min size catBufCap = size := by
    unfold catBufCap
    omega
  simp only [sysReadfile, hpath, hread, hmin]

/-- The bytes that reach the session file. -/
def Cp.stored (op : Cp) (content : List UInt8) : List UInt8 :=
  if op.writeKm = none then [] else content.take 4096

theorem ramwWrite_stored {R : Ramfs} {r : RamId} {e : RamfsEntry} {op : Cp} {content : List UInt8}
    (hdata : e.data = none) (hsize : e.size = 0) :
    ∃ e', (ramwWrite (Function.update R r e) r (content.take 4096) op.writeKm).1 =
        Function.update R r e' ∧ e'.used = e.used ∧ e'.name = e.name ∧
      e'.Holding (op.stored content) := by
  have hempty : e.Holding [] := ⟨hsize, Or.inl ⟨hdata, rfl⟩⟩
  cases hkm : op.writeKm with
  | none =>
      refine ⟨e, ?_, rfl, rfl, by simpa [Cp.stored, hkm] using hempty⟩
      simp [ramwWrite, ramfsPreallocate, hdata, ramfsWrMax]
  | some a =>
      have hroom : ([] : List UInt8).length + (content.take 4096).length ≤ ramfsWrMax := by
        simp only [List.length_nil, List.length_take, ramfsWrMax]
        omega
      obtain ⟨e', hwrite, hused, hname, hhold⟩ := ramwWrite_holding
        (R := Function.update R r e) (r := r) (by simpa using hempty)
        (Option.isSome_some (a := a)) hroom
      refine ⟨e', ?_, by simpa using hused, by simpa using hname, ?_⟩
      · rw [hwrite]
        simp
      · simpa [Cp.stored, hkm] using hhold

section Command

variable {s : Sys} {tid : Nat} {op : Cp} {content path : List UInt8} {v : Vfs}

theorem cp_of_source (hsrc : op.Source s content v) :
    cp s tid op =
      let r := sysCreat (s.setVfs v) tid op.cwd op.dst
      if r.2 < 0 then (.cannotCreate, r.1)
      else
        let t := (sysWrite r.1 tid r.2 content op.writeKm).elim r.1 Prod.fst
        (.nothing, (sysClose (flushFile op.closeKm op.now) t tid true r.2).1) := by
  simp only [cp, sysReadfile_source hsrc]

theorem Cp.Source.sameFiles (hsrc : op.Source s content v) : SameFiles s.vfs v := by
  obtain ⟨path, b, size, -, hread, -⟩ := hsrc
  have hsame := vfsRead_sameFiles s.vfs path op.readKm
  rwa [hread] at hsame

/-- Without a descriptor or a session file the command prints a message. -/
theorem cp_cannotCreate (hsrc : op.Source s content v) (hdst : userPath op.cwd op.dst = some path)
    (hno : ¬CanCreate s path) : (cp s tid op).1 = .cannotCreate := by
  have hcreat : (sysCreat (s.setVfs v) tid op.cwd op.dst).2 = -1 := by
    simp only [sysCreat, hdst]
    cases hslot : freeSlot s with
    | none =>
        have hfull : ∀ w : Vfs, freeSlot (s.setVfs w) = none := fun _ => hslot
        split
        · exact congrArg Prod.snd (fdFill_full tid _ (hfull v))
        · split
          · rfl
          · exact congrArg Prod.snd (fdFill_full tid _ (hfull _))
    | some i =>
        have hsess : isDevnull path = false ∧ ramfsFind s.vfs.ramfs path = none ∧
            ramfsFree s.vfs.ramfs = none := by
          by_contra hcon
          refine hno ⟨by simp [hslot], ?_⟩
          by_contra hall
          push Not at hall
          exact hcon ⟨by simpa using hall.1, hall.2.1, hall.2.2⟩
        have hram : (s.setVfs v).vfs.ramfs = s.vfs.ramfs := hsrc.sameFiles.ramfs
        simp [hsess.1, ramfsCreat, hram, hsess.2.1, hsess.2.2]
  rw [cp_of_source hsrc]
  simp [hcreat]

theorem fdAllocNull_free {s : Sys} (tid : Nat) {i : Slot} (h : freeSlot s = some i) :
    0 ≤ (fdAllocNull s tid).2 ∧
      fdGet (fdAllocNull s tid).1 tid (fdAllocNull s tid).2 = some i ∧
      ((fdAllocNull s tid).1.fds i).type = .null ∧ (fdAllocNull s tid).1.vfs = s.vfs := by
  obtain ⟨n, hn, hnone, hfill⟩ := fdFill_some tid { SysFd.zero with type := .null } h
  have halloc : fdAllocNull s tid = _ := hfill
  rw [halloc]
  refine ⟨hn, fdGet_setFd_new hnone i rfl rfl rfl, ?_, rfl⟩
  rw [setFd_fds_same]

theorem cp_devnull (tid : Nat) (hsrc : op.Source s content v)
    (hdst : userPath op.cwd op.dst = some path) (hdev : isDevnull path = true) {i : Slot} (hslot : freeSlot s = some i) :
    (cp s tid op).1 = .nothing ∧ (cp s tid op).2.vfs = v := by
  have hcreat : sysCreat (s.setVfs v) tid op.cwd op.dst = fdAllocNull (s.setVfs v) tid := by
    simp only [sysCreat, hdst, hdev, if_true]
  obtain ⟨hok, hget, htype, hvfs⟩ := fdAllocNull_free (s := s.setVfs v) tid hslot
  rw [cp_of_source hsrc, hcreat]
  generalize fdAllocNull (s.setVfs v) tid = q at *
  have hwrite : sysWrite q.1 tid q.2 content op.writeKm =
      some (q.1, ((content.take 4096).length : Int)) := by
    simp [sysWrite, hget, htype]
  have haddOpen : addOpen q.1 (q.1.fds i) (-1) = q.1 := by simp [addOpen, htype]
  simp only [not_lt.2 hok, if_false, hwrite, Option.elim_some, sysClose, Bool.not_true,
    Bool.false_eq_true, fdClose, hget, fdCloseEntry, haddOpen, htype, true_and]
  exact hvfs

/-- The session file of the destination when the command closes it. -/
theorem cp_session (tid : Nat) (hsrc : op.Source s content v)
    (hdst : userPath op.cwd op.dst = some path) (hdev : isDevnull path = false) {i : Slot} (hslot : freeSlot s = some i)
    (hsess : ramfsFind s.vfs.ramfs path ≠ none ∨ ramfsFree s.vfs.ramfs ≠ none) :
    (cp s tid op).1 = .nothing ∧ ∃ r e, (v.ramfs r).Hidden ∧ e.used = true ∧ e.name = path ∧
      ramfsFree (Function.update v.ramfs r e) = ramfsFree (withSession v.ramfs path) ∧
      e.Holding (op.stored content) ∧
      (cp s tid op).2.vfs =
        flushFile op.closeKm op.now r { v with ramfs := Function.update v.ramfs r e } := by
  obtain ⟨hhead, hlen⟩ := userPath_some hdst
  rw [← hsrc.sameFiles.ramfs] at hsess
  obtain ⟨r, e, hcreat, hused, hname, hdata, hsize, hkey⟩ := ramfsCreat_slot hlen hsess
  obtain ⟨e', hwrite, hused', hname', hhold⟩ :=
    @ramwWrite_stored v.ramfs r _ op content hdata hsize
  have hhidden : (v.ramfs r).Hidden := by
    rcases hkey with hkey | hkey
    · exact Or.inr ((entryKey_eq_some.1 hkey).2 ▸ hhead)
    · refine Or.inl ?_
      by_contra hu
      simp [entryKey, hu] at hkey
  have hcall : sysCreat (s.setVfs v) tid op.cwd op.dst = fdAllocRamw
      (s.setVfs { v with ramfs := Function.update v.ramfs r e }) tid r := by
    have hram : (s.setVfs v).vfs = v := rfl
    simp only [sysCreat, hdst, hdev, Bool.false_eq_true, if_false, hram, hcreat]
    rfl
  obtain ⟨hok, hto, hvfs⟩ := fdAllocRamw_writesTo
    (s := s.setVfs { v with ramfs := Function.update v.ramfs r e }) tid r hslot
  rw [cp_of_source hsrc, hcall]
  generalize fdAllocRamw (s.setVfs { v with ramfs := Function.update v.ramfs r e }) tid r = q at *
  have hwritten : sysWrite q.1 tid q.2 content op.writeKm = some
      (Sys.setVfs q.1 { v with ramfs := Function.update v.ramfs r e' },
        (ramwWrite (Function.update v.ramfs r e) r (content.take 4096) op.writeKm).2) := by
    have hqv : q.1.vfs = { v with ramfs := Function.update v.ramfs r e } := hvfs
    simp only [sysWrite, hto.get, Option.bind_some, hto.type, hto.ramfile, hqv, hwrite]
  have hto' : WritesTo (Sys.setVfs q.1 { v with ramfs := Function.update v.ramfs r e' }) tid q.2 i
      r := ⟨hto.get, hto.type, hto.ramfile⟩
  simp only [not_lt.2 hok, if_false, hwritten, Option.elim_some, close_session hto', true_and]
  refine ⟨r, e', hhidden, hused'.trans hused, hname'.trans hname, ?_, hhold, rfl⟩
  rw [withSession, hcreat]
  change ramfsFree _ = ramfsFree (Function.update v.ramfs r e)
  refine List.find?_congr fun j _ => ?_
  by_cases hj : j = r
  · subst hj
    rw [Function.update_self, Function.update_self, hused']
  · rw [Function.update_of_ne hj, Function.update_of_ne hj]

theorem stored_eq_nil : op.stored content = [] ↔ content = [] ∨ op.writeKm = none := by
  unfold Cp.stored
  by_cases hkm : op.writeKm = none
  · simp [hkm]
  · simp [hkm]

/-- The session file of the destination has been closed. -/
theorem arrives_iff_flush (hdst : userPath op.cwd op.dst = some path)
    (hdev : isDevnull path = false) {r : RamId} {e : RamfsEntry} (hold : (v.ramfs r).Hidden)
    (hused : e.used = true) (hname : e.name = path)
    (hwith : ramfsFree (Function.update v.ramfs r e) = ramfsFree (withSession v.ramfs path))
    (hhold : e.Holding (op.stored content)) :
    fileAt (flushFile op.closeKm op.now r { v with ramfs := Function.update v.ramfs r e }) path =
      some content ↔ Arrives v path op content := by
  obtain ⟨hhead, hlen⟩ := userPath_some hdst
  unfold Arrives
  by_cases hnone : content = [] ∨ op.writeKm = none
  · rw [if_pos (Or.inr hnone)]
    have hsize : e.size = 0 := by
      rw [hhold.1, stored_eq_nil.2 hnone]
      rfl
    have hflush : flushFile op.closeKm op.now r { v with ramfs := Function.update v.ramfs r e } =
        { v with ramfs := Function.update v.ramfs r e } := by
      simp [flushFile, hsize]
    rw [hflush, fileAt_update_hidden hold (Or.inr (hname ▸ hhead))]
  · rw [if_neg (by simpa [hdev] using hnone)]
    have hne : op.stored content ≠ [] := fun h => hnone (stored_eq_nil.1 h)
    have hstored : op.stored content = content.take 4096 := by
      push Not at hnone
      rw [Cp.stored, if_neg hnone.2]
    rw [fileAt_flush hold hused hname hhead hlen hwith hhold hne, hstored]
    have htake : content.take 4096 = content ↔ content.length ≤ 4096 := List.take_eq_self_iff _
    by_cases hn : vfsNormPath path = []
    · have hfile : fileAt v path = none := by rw [fileAt_eq, if_pos hn]
      simp [hn, hfile]
    · rw [if_neg hn]
      simp only [ne_eq, hn, not_false_eq_true, true_and]
      cases v.ext2.ready with
      | true =>
          simp only [if_true]
          split
          · rfl
          · rfl
      | false =>
          simp only [Bool.false_eq_true, if_false]
          split
          · cases op.closeKm with
            | none => simp
            | some a => simp [htake]
          · rfl

/-- The command when it prints nothing, and what is then found at the destination. -/
theorem cp_canCreate (hsrc : op.Source s content v) (hdst : userPath op.cwd op.dst = some path)
    (hcan : CanCreate s path) (tid : Nat) :
    (cp s tid op).1 = .nothing ∧
      (fileAt (cp s tid op).2.vfs path = some content ↔ Arrives v path op content) := by
  obtain ⟨hslot, hsess⟩ := hcan
  obtain ⟨i, hi⟩ := Option.ne_none_iff_exists'.1 hslot
  cases hdev : isDevnull path with
  | true =>
      obtain ⟨hprints, hvfs⟩ := cp_devnull tid hsrc hdst hdev hi
      refine ⟨hprints, ?_⟩
      rw [hvfs, Arrives, if_pos (Or.inl hdev)]
  | false =>
      obtain ⟨hprints, r, e, hold, hused, hname, hwith, hhold, hvfs⟩ :=
        cp_session tid hsrc hdst hdev hi (hsess.resolve_left (by simp [hdev]))
      refine ⟨hprints, ?_⟩
      rw [hvfs]
      exact arrives_iff_flush hdst hdev hold hused hname hwith hhold

/-- The command copies exactly if the content arrives. -/
theorem cpCopies_iff (hsrc : op.Source s content v) (tid : Nat) :
    CpCopies s tid op content ↔
      ∀ path, userPath op.cwd op.dst = some path → CanCreate s path →
        Arrives v path op content := by
  constructor
  · intro h path hdst hcan
    obtain ⟨hprints, hiff⟩ := cp_canCreate hsrc hdst hcan tid
    exact hiff.1 (h hprints path hdst)
  · intro h hprints path hdst
    by_cases hcan : CanCreate s path
    · exact (cp_canCreate hsrc hdst hcan tid).2.2 (h path hdst hcan)
    · rw [cp_cannotCreate hsrc hdst hcan] at hprints
      cases hprints

end Command

/-- A boot without a disk and with one file `a` in the initrd. -/
def bootWith (bytes : List UInt8) : Sys :=
  Tables.init (Vfs.boot [⟨[97], ⟨4096, bytes⟩⟩])

/-- `cp /a /b`. -/
def copyAB : Cp :=
  ⟨[slash], some [slash, 97], some [slash, 98], none, some 8192, some 12288, 0⟩

theorem source_copyAB {bytes : List UInt8} (hlen : bytes.length < 64 * 1024) :
    copyAB.Source (bootWith bytes) bytes (bootWith bytes).vfs := by
  refine ⟨[slash, 97], ⟨4096, bytes⟩, bytes.length, by decide, ?_, hlen, by simp⟩
  rfl

theorem dst_copyAB : userPath copyAB.cwd copyAB.dst = some [slash, 98] := by
  decide

theorem canCreate_copyAB (bytes : List UInt8) : CanCreate (bootWith bytes) [slash, 98] := by
  refine ⟨?_, Or.inr (Or.inr ?_)⟩
  · change freeSlot (bootWith []) ≠ none
    decide
  · change ramfsFree ramfsInit ≠ none
    decide

theorem arrives_copyAB {bytes : List UInt8} (hne : bytes ≠ []) :
    Arrives (bootWith bytes).vfs [slash, 98] copyAB bytes ↔ bytes.length ≤ 4096 := by
  have hpath : vfsNormPath [slash, 98] = [98] := by decide
  have hfree : ramfsFree (withSession ramfsInit [slash, 98]) ≠ none := by decide
  have hstored : ¬(isDevnull [slash, 98] = true ∨ bytes = [] ∨ copyAB.writeKm = none) := by
    rintro (hdev | hnil | hkm)
    · exact absurd hdev (by decide)
    · exact hne hnil
    · cases hkm
  unfold Arrives
  rw [if_neg hstored, if_neg (show ¬(bootWith bytes).vfs.ext2.ready = true by
    change ¬false = true
    decide), if_pos ⟨by rw [hpath]; decide, Or.inr hfree⟩]
  exact and_iff_right rfl

theorem cpCopies_one_byte : copyAB.Source (bootWith [1]) [1] (bootWith [1]).vfs ∧
    CpCopies (bootWith [1]) 1 copyAB [1] := by
  have hsrc : copyAB.Source (bootWith [1]) [1] (bootWith [1]).vfs := source_copyAB (by decide)
  refine ⟨hsrc, (cpCopies_iff hsrc 1).2 fun path hdst _ => ?_⟩
  obtain rfl := Option.some.inj (dst_copyAB.symm.trans hdst)
  exact (arrives_copyAB (by decide)).2 (by decide)

/-- A file of 4097 bytes is cut. -/
theorem not_cpCopies_long : ¬∀ s tid op content v, Cp.Source op s content v →
    CpCopies s tid op content := by
  intro h
  have hne : List.replicate 4097 (1 : UInt8) ≠ [] := by
    rw [ne_eq, List.replicate_eq_nil_iff]
    decide
  have hsrc := @source_copyAB (List.replicate 4097 1) (by
    rw [List.length_replicate]
    decide)
  obtain ⟨hprints, hiff⟩ := cp_canCreate hsrc dst_copyAB (canCreate_copyAB _) 1
  have hlen := (arrives_copyAB hne).1 (hiff.1 (h _ 1 copyAB _ _ hsrc hprints _ dst_copyAB))
  rw [List.length_replicate] at hlen
  omega

end FiFi.Vfs
