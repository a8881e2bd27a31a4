import FiFi.Vfs.Naming
import FiFi.Ext2.Extent
import FiFi.Fd.PipeCount

/-!
# Writing and reading files through descriptors

`SYS_CREAT` and `SYS_OPENW` open a session file under the resolved path, with its
leading slash; closing the descriptor hands the content to `vfs_write`, which
drops the slash. `SYS_OPEN` keeps the pointer that `vfs_read` returned.

The descriptor table is the one of `FiFi.Fd`, with the layers of the VFS beside
it. User memory is not part of this: a string or a buffer that cannot be copied
in is `none`, and copying out succeeds.
-/

namespace FiFi.Vfs

open FiFi.Fd

abbrev Sys := Tables Vfs

def Sys.setVfs (s : Sys) (v : Vfs) : Sys := { s with vfs := v }

/-- Room for redirected output (`RAMFS_WR_MAX`). -/
def ramfsWrMax : Nat := 256 * 1024

/-- `is_devnull`. -/
def isDevnull (path : List UInt8) : Bool :=
  path == [47, 100, 101, 118, 47, 110, 117, 108, 108]

/-- The path of a handler: the string is copied in and resolved. -/
def userPath (cwd : List UInt8) (raw : Option (List UInt8)) : Option (List UInt8) :=
  raw.bind (pathResolve pathCap cwd)

/-! ### Opening for writing -/

/-- `SYS_CREAT`. -/
def sysCreat (s : Sys) (tid : Nat) (cwd : List UInt8) (raw : Option (List UInt8)) : Sys × Int :=
  match userPath cwd raw with
  | none => (s, -1)
  | some path =>
      if isDevnull path then fdAllocNull s tid
      else
        match ramfsCreat s.vfs.ramfs path with
        | (_, none) => (s, -1)
        | (ramfs, some r) => fdAllocRamw (s.setVfs { s.vfs with ramfs := ramfs }) tid r

/-- The content that `SYS_OPENW` starts from, if there is any. One that is too long
is left out. -/
def existing (read : Option (Option Buf × Nat)) : List UInt8 :=
  match read with
  | some (some b, size) => if size > ramfsWrMax then [] else b.bytes.take size
  | _ => []

/-- The session file with the existing content in its buffer, if it has one. -/
def RamfsEntry.preload (e : RamfsEntry) (content : List UInt8) : RamfsEntry :=
  match e.data with
  | some b => if content = [] then e
      else { e with data := some (b.put content), size := content.length }
  | none => e

/-- `SYS_OPENW`. The two `kmalloc` are those of `vfs_read` and of
`ramfs_preallocate`. -/
def sysOpenw (s : Sys) (tid : Nat) (cwd : List UInt8) (raw : Option (List UInt8))
    (kmalloc kmalloc' : Option Nat) : Sys × Int :=
  match userPath cwd raw with
  | none => (s, -1)
  | some path =>
      if isDevnull path then fdAllocNull s tid
      else
        let q := vfsRead s.vfs path kmalloc
        match ramfsCreat q.2.ramfs path with
        | (_, none) => (s.setVfs q.2, -1)
        | (ramfs, some r) =>
            let ramfs := (ramfsPreallocate ramfs r ramfsWrMax kmalloc').1
            let ramfs := Function.update ramfs r ((ramfs r).preload (existing q.1))
            fdAllocRamw (s.setVfs { q.2 with ramfs := ramfs }) tid r

/-! ### Writing and closing -/

/-- The bytes are stored behind the first `size` ones. -/
def Buf.append (b : Buf) (size : Nat) (bytes : List UInt8) : Buf :=
  { b with bytes := b.bytes.take size ++ bytes ++ b.bytes.drop (size + bytes.length) }

/-- The branch of `SYS_WRITE` for a session file; the room is an `unsigned`
difference. -/
def ramwWrite (s : Ramfs) (r : RamId) (bytes : List UInt8) (kmalloc : Option Nat) : Ramfs × Int :=
  let p := ramfsPreallocate s r ramfsWrMax kmalloc
  match (p.1 r).data with
  | none => (p.1, -1)
  | some b =>
      let room := (2 ^ 32 + ramfsWrMax - (p.1 r).size) % 2 ^ 32
      let bytes := bytes.take room
      (Function.update p.1 r
        { p.1 r with data := some (b.append (p.1 r).size bytes), size := (p.1 r).size + bytes.length },
        bytes.length)

/-- `SYS_WRITE` to a session file or to `/dev/null`. There is no answer for pipes
and the console. -/
def sysWrite (s : Sys) (tid : Nat) (fd : Int) (bytes : List UInt8) (kmalloc : Option Nat) :
    Option (Sys × Int) :=
  (fdGet s tid fd).bind fun i =>
    match (s.fds i).type, (s.fds i).ramfile with
    | .null, _ => some (s, (bytes.take 4096).length)
    | .ramw, some r =>
        let q := ramwWrite s.vfs.ramfs r (bytes.take 4096) kmalloc
        some (s.setVfs { s.vfs with ramfs := q.1 }, q.2)
    | _, _ => none

/-- The pointer and the size that are handed to `vfs_write` on close. -/
def RamfsEntry.source (e : RamfsEntry) : Source :=
  match e.data with
  | some b => .bytes (b.bytes.take e.size)
  | none => .null e.size

/-- The flush of `fd_close_entry`: a file without content is not written. -/
def flushFile (kmalloc : Option Nat) (now : Nat) (r : RamId) (v : Vfs) : Vfs :=
  if (v.ramfs r).size > 0 then
    (vfsWrite v (v.ramfs r).name (v.ramfs r).source kmalloc now).2
  else v

/-! ### Reading -/

/-- The buffers that `vfs_read` can point to. -/
def Vfs.buffers (v : Vfs) : List Buf :=
  v.ext2Buf.toList ++ v.initrd.map InitrdFile.data ++
    (List.finRange ramfsMaxFiles).filterMap fun r =>
      if (v.ramfs r).used && (v.ramfs r).name.head? != some slash then (v.ramfs r).data else none

/-- What is at an address, if it is one of these buffers. -/
def Vfs.bytesAt (v : Vfs) (addr : Nat) : Option (List UInt8) :=
  (v.buffers.find? fun b => b.addr == addr).map Buf.bytes

/-- `SYS_OPEN`. -/
def sysOpen (s : Sys) (tid : Nat) (cwd : List UInt8) (raw : Option (List UInt8))
    (kmalloc : Option Nat) : Sys × Int :=
  match userPath cwd raw with
  | none => (s, -1)
  | some path =>
      if isDevnull path then fdAllocNull s tid
      else
        match vfsRead s.vfs path kmalloc with
        | (some (some b, size), v) => fdAlloc (s.setVfs v) tid b.addr size
        | (_, v) => (s.setVfs v, -1)

/-- `SYS_READ` of a file or of `/dev/null`: the bytes. There is no answer for
pipes. -/
def sysRead (s : Sys) (tid : Nat) (fd : Int) (len : Nat) : Option (List UInt8 × Sys) :=
  (fdGet s tid fd).bind fun i =>
    match (s.fds i).type with
    | .null => some ([], s)
    | .pipeR => none
    | _ =>
        let e := s.fds i
        if e.off ≥ e.size then some ([], s)
        else
          let n := min (min len 4096) (e.size - e.off)
          (s.vfs.bytesAt e.data).map fun b =>
            ((b.drop e.off).take n, setFd s i { e with off := e.off + n })

/-- A sequence of reads of these lengths, and all their bytes. -/
def readSeq (s : Sys) (tid : Nat) (fd : Int) : List Nat → Option (List UInt8 × Sys)
  | [] => some ([], s)
  | len :: lens =>
      (sysRead s tid fd len).bind fun r =>
        (readSeq r.2 tid fd lens).map fun q => (r.1 ++ q.1, q.2)

end FiFi.Vfs

/-!
## Opening for writing when it fails

`SYS_CREAT` and `SYS_OPENW` take or empty the session file of the path before they
look for a descriptor, and `SYS_OPENW` reads the old content before that. When a
later step fails nothing of this is undone. Session files carry a leading slash
and are hidden from `vfs_read`, so the content of paths is safe; what can change
are the table of session files and what other descriptors refer to.
-/

namespace FiFi.Vfs

open FiFi.Fd

/-! ### What can be observed -/

/-- The content of a session file. -/
def RamfsEntry.content (e : RamfsEntry) : List UInt8 := (e.data.elim [] Buf.bytes).take e.size

/-- The content `vfs_read` finds at a path, when there is memory for its buffer. -/
def contentAt (v : Vfs) (path : List UInt8) : Option (List UInt8) :=
  (vfsRead v path (some 0)).1.map fun r => (r.1.elim [] Buf.bytes).take r.2

/-- The bytes a file descriptor has not read yet. -/
def bytesLeft (v : Vfs) (e : SysFd) : Option (List UInt8) :=
  (v.bytesAt e.data).map fun b => (b.take e.size).drop e.off

/-- What a descriptor refers to in the file system. -/
def fdView (v : Vfs) (e : SysFd) : Option (List UInt8) :=
  match e.type, e.ramfile with
  | .file, _ => bytesLeft v e
  | .ramw, some r => some (v.ramfs r).content
  | _, _ => none

/-- Every path reads the same, every descriptor is the same and refers to the same,
and the same session files are in use. -/
structure Unchanged (s s' : Sys) : Prop where
  reads : ∀ path, contentAt s'.vfs path = contentAt s.vfs path
  fds : s'.fds = s.fds
  pipes : s'.pipes = s.pipes
  views : ∀ i, (s.fds i).used = true → fdView s'.vfs (s.fds i) = fdView s.vfs (s.fds i)
  slots : ∀ r, (s'.vfs.ramfs r).used = (s.vfs.ramfs r).used

/-! ### When nothing changes -/

/-- A session file that some descriptor writes to has this content. -/
def HeldWith (s : Sys) (r : RamId) (content : List UInt8) : Prop :=
  ∀ i, (s.fds i).used = true → (s.fds i).type = .ramw → (s.fds i).ramfile = some r →
    content = (s.vfs.ramfs r).content

/-- No session file is taken for the path, and the one it has may get the content. -/
def SessionKept (s : Sys) (path content : List UInt8) : Prop :=
  match ramfsFind s.vfs.ramfs path with
  | some r => HeldWith s r content
  | none => ramfsFree s.vfs.ramfs = none

/-- No open file loses bytes it has not read yet. -/
def FilesKept (s : Sys) (v : Vfs) : Prop :=
  ∀ i, (s.fds i).used = true → (s.fds i).type = .file →
    bytesLeft v (s.fds i) = bytesLeft s.vfs (s.fds i)

/-- When no descriptor is free, no session file is taken, and the one that is emptied
is empty already or nobody writes to it. -/
def CreatKeeps (s : Sys) (cwd : List UInt8) (raw : Option (List UInt8)) : Prop :=
  ∀ path, userPath cwd raw = some path → isDevnull path = false → freeSlot s = none →
    SessionKept s path []

/-- When no descriptor or no session file is free, the old content is not read over
bytes that an open file still has to read. When no descriptor is free, no session
file is taken either, and the one that is reloaded has that content already or
nobody writes to it. -/
def OpenwKeeps (s : Sys) (cwd : List UInt8) (raw : Option (List UInt8))
    (kmalloc kmalloc' : Option Nat) : Prop :=
  ∀ path, userPath cwd raw = some path → isDevnull path = false →
    freeSlot s = none ∨ ramfsFind s.vfs.ramfs path = none ∧ ramfsFree s.vfs.ramfs = none →
    FilesKept s (vfsRead s.vfs path kmalloc).2 ∧
      (freeSlot s = none →
        SessionKept s path
          (if kmalloc'.isSome then existing (vfsRead s.vfs path kmalloc).1 else []))

/-! ### Session files are hidden -/

/-- `vfs_read` does not find the entry. -/
def RamfsEntry.Hidden (e : RamfsEntry) : Prop := e.used = false ∨ e.name.head? = some slash

theorem RamfsEntry.Hidden.not_found {e : RamfsEntry} (h : e.Hidden) {n : List UInt8}
    (hn : n.head? ≠ some slash) : (e.used && rfStreq e.name n) = false := by
  rcases h with hu | hname
  · simp [hu]
  · rw [Bool.and_eq_false_iff]
    refine Or.inr (Bool.not_eq_true _ ▸ fun heq => ?_)
    rw [rfStreq_iff] at heq
    exact hn (heq ▸ hname)

section Session

variable {s : Ramfs} {r : RamId} {e : RamfsEntry}

/-- Replacing a hidden entry by a hidden one does not show in lookups. -/
theorem ramfsFind_update_hidden (h : (s r).Hidden) (h' : e.Hidden) {n : List UInt8}
    (hn : n.head? ≠ some slash) : ramfsFind (Function.update s r e) n = ramfsFind s n := by
  refine List.find?_congr fun j _ => ?_
  by_cases hj : j = r
  · subst hj
    rw [Function.update_self, h.not_found hn, h'.not_found hn]
  · rw [Function.update_of_ne hj]

theorem ramfsGet_update_hidden (h : (s r).Hidden) (h' : e.Hidden) {n : List UInt8}
    (hn : n.head? ≠ some slash) : ramfsGet (Function.update s r e) n = ramfsGet s n := by
  unfold ramfsGet
  rw [ramfsFind_update_hidden h h' hn]
  cases hf : ramfsFind s n with
  | none => rfl
  | some j =>
      have hjr : j ≠ r := by
        rintro rfl
        have hj := List.find?_some hf
        rw [h.not_found hn] at hj
        cases hj
      simp [hjr]

theorem vfsNormPath_head (path : List UInt8) : (vfsNormPath path).head? ≠ some slash := by
  intro h
  obtain ⟨l, hl⟩ : ∃ l, vfsNormPath path = slash :: l := by
    cases hn : vfsNormPath path with
    | nil => simp [hn] at h
    | cons x l => exact ⟨l, by simpa [hn] using h⟩
  have hdrop := List.dropWhile_idempotent (p := fun x => decide (x = slash)) path
  change vfsNormPath (vfsNormPath path) = vfsNormPath path at hdrop
  rw [hl, vfsNormPath_slash] at hdrop
  have hlen := congrArg List.length hdrop
  have hle : (vfsNormPath l).length ≤ l.length := (List.dropWhile_suffix _).length_le
  simp only [List.length_cons] at hlen
  omega

end Session

/-! ### Reading -/

/-- The layers hold the same files; only scratch memory differs. -/
structure SameFiles (v v' : Vfs) : Prop where
  ramfs : v'.ramfs = v.ramfs
  initrd : v'.initrd = v.initrd
  ext2 : v.ext2.Reads v'.ext2

theorem vfsRead_sameFiles (v : Vfs) (path : List UInt8) (kmalloc : Option Nat) :
    SameFiles v (vfsRead v path kmalloc).2 := by
  have hrefl : SameFiles v v := ⟨rfl, rfl, .refl⟩
  unfold vfsRead
  dsimp only
  split
  · exact hrefl
  · split
    · exact hrefl
    · split
      · exact hrefl
      · split
        · unfold vfsReadExt2
          have hreads := Ext2.readFile_reads v.ext2 (fullPath (vfsNormPath path)) ext2BufCap
          split
          · exact hrefl
          · split
            · rename_i heq
              rw [heq] at hreads
              exact ⟨rfl, rfl, hreads⟩
            · rename_i heq
              rw [heq] at hreads
              exact ⟨rfl, rfl, hreads⟩
        · exact hrefl

/-- The content of a path, layer by layer. -/
theorem contentAt_eq (v : Vfs) (path : List UInt8) :
    contentAt v path =
      if vfsNormPath path = [] then none
      else
        match ramfsGet v.ramfs (vfsNormPath path), initrdGet v.initrd (vfsNormPath path) with
        | some r, _ => some ((r.1.elim [] Buf.bytes).take r.2)
        | none, some r => some ((r.1.elim [] Buf.bytes).take r.2)
        | none, none =>
            if v.ext2.ready then
              (Ext2.readFile v.ext2 (fullPath (vfsNormPath path)) ext2BufCap).1
            else none := by
  unfold contentAt vfsRead
  dsimp only
  split
  · rfl
  · cases ramfsGet v.ramfs (vfsNormPath path) with
    | some r => rfl
    | none =>
        cases initrdGet v.initrd (vfsNormPath path) with
        | some r => rfl
        | none =>
            dsimp only
            split
            · unfold vfsReadExt2
              obtain ⟨b, hb⟩ : ∃ b, v.buffer (some 0) = some b := by
                unfold Vfs.buffer
                cases v.ext2Buf <;> simp
              rw [hb]
              dsimp only
              generalize Ext2.readFile v.ext2 (fullPath (vfsNormPath path)) ext2BufCap = q
              obtain ⟨_ | got, t⟩ := q
              · rfl
              · simp [Buf.put]
            · rfl

theorem contentAt_congr {v v' : Vfs}
    (hram : ∀ n, n.head? ≠ some slash → ramfsGet v'.ramfs n = ramfsGet v.ramfs n)
    (hinitrd : v'.initrd = v.initrd) (hext2 : v.ext2.Reads v'.ext2) (path : List UInt8) :
    contentAt v' path = contentAt v path := by
  rw [contentAt_eq, contentAt_eq, hram _ (vfsNormPath_head path), hinitrd, hext2.ready,
    Ext2.readFile_congr hext2]

theorem bytesAt_update_hidden {v : Vfs} {r : RamId} {e : RamfsEntry} (h : (v.ramfs r).Hidden)
    (h' : e.Hidden) (addr : Nat) :
    Vfs.bytesAt { v with ramfs := Function.update v.ramfs r e } addr = v.bytesAt addr := by
  have hnone : ∀ {e : RamfsEntry}, e.Hidden →
      (if e.used && e.name.head? != some slash then e.data else none) = none := by
    rintro e (hu | hname)
    · simp [hu]
    · simp [hname]
  have hbufs : Vfs.buffers { v with ramfs := Function.update v.ramfs r e } = v.buffers := by
    unfold Vfs.buffers
    congr 1
    refine List.filterMap_congr fun j _ => ?_
    by_cases hj : j = r
    · subst hj
      simp only [Function.update_self]
      rw [hnone h, hnone h']
    · simp only [Function.update_of_ne hj]
  unfold Vfs.bytesAt
  rw [hbufs]

/-! ### What a failed call leaves -/

theorem Unchanged.refl (s : Sys) : Unchanged s s :=
  ⟨fun _ => rfl, rfl, rfl, fun _ _ => rfl, fun _ => rfl⟩

theorem fdView_file {v : Vfs} {e : SysFd} (h : e.type = .file) : fdView v e = bytesLeft v e := by
  simp [fdView, h]

theorem fdView_congr {v v' : Vfs} {e : SysFd} (hram : v'.ramfs = v.ramfs)
    (hfile : e.type = .file → bytesLeft v' e = bytesLeft v e) : fdView v' e = fdView v e := by
  unfold fdView
  split
  · rename_i htype
    exact hfile htype
  · rw [hram]
  · rfl

/-- Only the old content was read. -/
theorem unchanged_read_iff {s : Sys} {v : Vfs} (hv : SameFiles s.vfs v) :
    Unchanged s (s.setVfs v) ↔ FilesKept s v := by
  constructor
  · intro h i hi htype
    have hview := h.views i hi
    rwa [fdView_file htype, fdView_file htype] at hview
  · intro h
    refine ⟨?_, rfl, rfl, ?_, ?_⟩
    · exact contentAt_congr (fun n _ => by rw [Sys.setVfs, hv.ramfs]) hv.initrd hv.ext2
    · exact fun i hi => fdView_congr hv.ramfs (h i hi)
    · intro r
      change (v.ramfs r).used = _
      rw [hv.ramfs]

/-- A session file was replaced as well. -/
theorem unchanged_session_iff {s : Sys} {v : Vfs} (hv : SameFiles s.vfs v) {r : RamId}
    {e : RamfsEntry} (h : (s.vfs.ramfs r).Hidden) (h' : e.Hidden) (hused : e.used = true) :
    Unchanged s (s.setVfs { v with ramfs := Function.update s.vfs.ramfs r e }) ↔
      FilesKept s v ∧ (s.vfs.ramfs r).used = true ∧ HeldWith s r e.content := by
  have hbytes : ∀ fd, bytesLeft { v with ramfs := Function.update s.vfs.ramfs r e } fd =
      bytesLeft v fd := by
    intro fd
    unfold bytesLeft
    rw [← hv.ramfs, bytesAt_update_hidden (by rwa [hv.ramfs]) h']
  constructor
  · intro hun
    refine ⟨?_, ?_, ?_⟩
    · intro i hi htype
      have hview := hun.views i hi
      rw [fdView_file htype, fdView_file htype] at hview
      exact (hbytes _).symm.trans hview
    · have hslot := hun.slots r
      simp only [Sys.setVfs, Function.update_self, hused] at hslot
      exact hslot.symm
    · intro i hi htype hram
      have hview := hun.views i hi
      simpa [fdView, htype, hram, Sys.setVfs] using hview
  · rintro ⟨hfiles, hwas, hheld⟩
    refine ⟨?_, rfl, rfl, ?_, ?_⟩
    · refine contentAt_congr (fun n hn => ?_) hv.initrd hv.ext2
      exact ramfsGet_update_hidden h h' hn
    · intro i hi
      change fdView { v with ramfs := Function.update s.vfs.ramfs r e } (s.fds i) = _
      cases htype : (s.fds i).type with
      | file =>
          rw [fdView_file htype, fdView_file htype, hbytes]
          exact hfiles i hi htype
      | ramw =>
          cases hram : (s.fds i).ramfile with
          | none => simp [fdView, htype, hram]
          | some q =>
              simp only [fdView, htype, hram, Option.some.injEq]
              by_cases hq : q = r
              · subst hq
                rw [Function.update_self]
                exact hheld i hi htype hram
              · rw [Function.update_of_ne hq]
      | pipeR => simp [fdView, htype]
      | pipeW => simp [fdView, htype]
      | null => simp [fdView, htype]
    · intro q
      change (Function.update s.vfs.ramfs r e q).used = _
      by_cases hq : q = r
      · subst hq
        rw [Function.update_self, hused, hwas]
      · rw [Function.update_of_ne hq]

/-! ### Descriptors -/

theorem fdFill_full {s : Sys} (tid : Nat) (fill : SysFd) (h : freeSlot s = none) :
    fdFill s tid fill = (s, -1) := by
  unfold fdFill
  rw [h]
  split <;> rfl

theorem fdFill_free {s : Sys} (tid : Nat) (fill : SysFd) {i : Slot} (h : freeSlot s = some i) :
    (fdFill s tid fill).2 ≠ -1 := by
  obtain ⟨n, hn⟩ := fdNextNum_isSome s tid
  have hmem := List.mem_of_find?_eq_some hn
  obtain ⟨k, -, hk⟩ := List.mem_map.1 hmem
  simp only [fdFill, hn, h]
  rw [← hk]
  simp only [Int.ofNat_eq_natCast]
  omega

theorem fdAllocRamw_full {s : Sys} (tid : Nat) (r : RamId) (h : freeSlot s = none) (v : Vfs) :
    fdAllocRamw (s.setVfs v) tid r = (s.setVfs v, -1) :=
  fdFill_full tid _ h

theorem fdAllocRamw_free {s : Sys} (tid : Nat) (r : RamId) {i : Slot} (h : freeSlot s = some i)
    (v : Vfs) : (fdAllocRamw (s.setVfs v) tid r).2 ≠ -1 :=
  fdFill_free tid _ (i := i) h

/-- A path that was resolved starts with a slash and fits a name. -/
theorem userPath_some {cwd : List UInt8} {raw : Option (List UInt8)} {path : List UInt8}
    (h : userPath cwd raw = some path) :
    path.head? = some slash ∧ path.length < ramfsNameMax := by
  obtain ⟨str, -, hres⟩ := Option.bind_eq_some_iff.1 h
  obtain ⟨-, hpath⟩ := pathResolve_some hres
  exact ⟨by rw [hpath]; rfl, pathResolve_length hres⟩

/-! ### The two calls -/

section Calls

variable {s : Sys} {tid : Nat} {cwd : List UInt8} {raw : Option (List UInt8)}

theorem hidden_of_find {ramfs : Ramfs} {path : List UInt8} (hpath : path.head? = some slash)
    {r : RamId} (h : ramfsFind ramfs path = some r) :
    (ramfs r).used = true ∧ (ramfs r).name.head? = some slash := by
  obtain ⟨hused, hname⟩ := entryKey_eq_some.1 (ramfsFind_some h)
  exact ⟨hused, by rw [hname, hpath]⟩

theorem unused_of_free {ramfs : Ramfs} {r : RamId} (h : ramfsFree ramfs = some r) :
    (ramfs r).used = false := by
  simpa using List.find?_some h

theorem fill_head (e : RamfsEntry) {path : List UInt8} (hpath : path.head? = some slash)
    (hlen : path.length < ramfsNameMax) : (e.fill path).name.head? = some slash := by
  change (rfStrcpy path ramfsNameMax).head? = some slash
  rw [rfStrcpy_of_short hlen, hpath]

/-- What `SYS_CREAT` does to the session file, when no descriptor is free. -/
theorem unchanged_creat_iff (tid : Nat) (hfree : freeSlot s = none) {path : List UInt8}
    (hpath : userPath cwd raw = some path) (hdev : isDevnull path = false) :
    Unchanged s (sysCreat s tid cwd raw).1 ↔ SessionKept s path [] := by
  obtain ⟨hhead, hlen⟩ := userPath_some hpath
  have hsame : SameFiles s.vfs s.vfs := ⟨rfl, rfl, .refl⟩
  have hkept : FilesKept s s.vfs := fun _ _ _ => rfl
  unfold SessionKept
  cases hfind : ramfsFind s.vfs.ramfs path with
  | some r =>
      obtain ⟨hused, hslash⟩ := hidden_of_find hhead hfind
      have hcreat : (sysCreat s tid cwd raw).1 = s.setVfs { s.vfs with
          ramfs := Function.update s.vfs.ramfs r
            { s.vfs.ramfs r with data := none, size := 0 } } := by
        simp only [sysCreat, hpath, hdev, Bool.false_eq_true, if_false, ramfsCreat, hfind]
        exact congrArg Prod.fst (fdAllocRamw_full tid r hfree _)
      have hhidden : RamfsEntry.Hidden { s.vfs.ramfs r with data := none, size := 0 } :=
        Or.inr hslash
      rw [hcreat, unchanged_session_iff hsame (Or.inr hslash) hhidden hused]
      simp [hkept, hused, RamfsEntry.content]
  | none =>
      cases hslot : ramfsFree s.vfs.ramfs with
      | none =>
          have hcreat : (sysCreat s tid cwd raw).1 = s := by
            simp [sysCreat, hpath, hdev, ramfsCreat, hfind, hslot]
          rw [hcreat]
          exact iff_of_true (.refl s) rfl
      | some r =>
          have hunused := unused_of_free hslot
          have hcreat : (sysCreat s tid cwd raw).1 = s.setVfs { s.vfs with
              ramfs := Function.update s.vfs.ramfs r ((s.vfs.ramfs r).fill path) } := by
            simp only [sysCreat, hpath, hdev, Bool.false_eq_true, if_false, ramfsCreat, hfind, hslot]
            exact congrArg Prod.fst (fdAllocRamw_full tid r hfree _)
          rw [hcreat, unchanged_session_iff hsame (Or.inl hunused)
            (Or.inr (fill_head _ hhead hlen)) rfl]
          simp [hunused]

theorem creatKeeps_iff :
    ((sysCreat s tid cwd raw).2 = -1 → Unchanged s (sysCreat s tid cwd raw).1) ↔
      CreatKeeps s cwd raw := by
  unfold CreatKeeps
  cases hpath : userPath cwd raw with
  | none =>
      have hcreat : sysCreat s tid cwd raw = (s, -1) := by simp [sysCreat, hpath]
      rw [hcreat]
      simpa using Unchanged.refl s
  | some path =>
      simp only [Option.some.injEq, forall_eq']
      cases hdev : isDevnull path with
      | true =>
          have hcreat : sysCreat s tid cwd raw = fdAllocNull s tid := by
            simp [sysCreat, hpath, hdev]
          rw [hcreat]
          refine iff_of_true (fun hfail => ?_) nofun
          cases hfree : freeSlot s with
          | none =>
              rw [fdAllocNull, fdFill_full _ _ hfree]
              exact .refl s
          | some i => exact absurd hfail (fdFill_free _ _ hfree)
      | false =>
          cases hfree : freeSlot s with
          | none =>
              simp only [forall_const]
              rw [← unchanged_creat_iff tid hfree hpath hdev]
              refine imp_iff_right ?_
              simp only [sysCreat, hpath, hdev, Bool.false_eq_true, if_false]
              split
              · rfl
              · exact congrArg Prod.snd (fdAllocRamw_full tid _ hfree _)
          | some i =>
              refine iff_of_true (fun hfail => ?_) nofun
              revert hfail
              simp only [sysCreat, hpath, hdev, Bool.false_eq_true, if_false]
              split
              · exact fun _ => .refl s
              · exact fun hfail => absurd hfail (fdAllocRamw_free tid _ hfree _)

/-- The session file after `SYS_OPENW`, from what `ramfs_creat` left. -/
def reload (e : RamfsEntry) (kmalloc : Option Nat) (content : List UInt8) : RamfsEntry :=
  match kmalloc with
  | none => e.preload content
  | some a => { e with data := some ⟨a, List.replicate ramfsWrMax 0⟩, size := 0 }.preload content

theorem preload_used (e : RamfsEntry) (content : List UInt8) :
    (e.preload content).used = e.used ∧ (e.preload content).name = e.name := by
  unfold RamfsEntry.preload
  split
  · split <;> exact ⟨rfl, rfl⟩
  · exact ⟨rfl, rfl⟩

theorem reload_used (e : RamfsEntry) (kmalloc : Option Nat) (content : List UInt8) :
    (reload e kmalloc content).used = e.used ∧ (reload e kmalloc content).name = e.name := by
  cases kmalloc <;> exact preload_used _ _

theorem reload_content {e : RamfsEntry} (hdata : e.data = none) (kmalloc : Option Nat)
    (content : List UInt8) :
    (reload e kmalloc content).content = if kmalloc.isSome then content else [] := by
  cases kmalloc with
  | none => simp [reload, RamfsEntry.preload, hdata, RamfsEntry.content]
  | some a =>
      by_cases hnil : content = []
      · simp [reload, RamfsEntry.preload, hnil, RamfsEntry.content]
      · simp [reload, RamfsEntry.preload, hnil, RamfsEntry.content, Buf.put]

/-- The steps of `SYS_OPENW` on the session file are one assignment. -/
theorem preallocate_reload (ramfs : Ramfs) (r : RamId) {e : RamfsEntry} (hdata : e.data = none)
    (kmalloc : Option Nat) (content : List UInt8) :
    let p := (ramfsPreallocate (Function.update ramfs r e) r ramfsWrMax kmalloc).1
    Function.update p r ((p r).preload content) =
      Function.update ramfs r (reload e kmalloc content) := by
  have hcap : ramfsWrMax ≠ 0 := by decide
  cases kmalloc with
  | none => simp [ramfsPreallocate, hdata, hcap, reload]
  | some a => simp [ramfsPreallocate, hdata, hcap, reload]

variable {kmalloc kmalloc' : Option Nat}

theorem unchanged_openw_iff (tid : Nat) (hfree : freeSlot s = none) {path : List UInt8}
    (hpath : userPath cwd raw = some path) (hdev : isDevnull path = false) :
    Unchanged s (sysOpenw s tid cwd raw kmalloc kmalloc').1 ↔
      FilesKept s (vfsRead s.vfs path kmalloc).2 ∧
        SessionKept s path
          (if kmalloc'.isSome then existing (vfsRead s.vfs path kmalloc).1 else []) := by
  obtain ⟨hhead, hlen⟩ := userPath_some hpath
  have hsame := vfsRead_sameFiles s.vfs path kmalloc
  unfold SessionKept
  cases hfind : ramfsFind s.vfs.ramfs path with
  | some r =>
      obtain ⟨hused, hslash⟩ := hidden_of_find hhead hfind
      have hopen : (sysOpenw s tid cwd raw kmalloc kmalloc').1 =
          s.setVfs { (vfsRead s.vfs path kmalloc).2 with
            ramfs := Function.update s.vfs.ramfs r
              (reload { s.vfs.ramfs r with data := none, size := 0 } kmalloc'
                (existing (vfsRead s.vfs path kmalloc).1)) } := by
        simp only [sysOpenw, hpath, hdev, Bool.false_eq_true, if_false, ramfsCreat, hsame.ramfs,
          hfind]
        rw [← preallocate_reload s.vfs.ramfs r (e := { s.vfs.ramfs r with data := none, size := 0 })
          rfl]
        exact congrArg Prod.fst (fdAllocRamw_full tid r hfree _)
      have hr := reload_used { s.vfs.ramfs r with data := none, size := 0 } kmalloc'
        (existing (vfsRead s.vfs path kmalloc).1)
      rw [hopen, unchanged_session_iff hsame (Or.inr hslash) (Or.inr (by rw [hr.2]; exact hslash))
        (by rw [hr.1]; exact hused), reload_content rfl]
      simp [hused]
  | none =>
      cases hslot : ramfsFree s.vfs.ramfs with
      | none =>
          have hopen : (sysOpenw s tid cwd raw kmalloc kmalloc').1 =
              s.setVfs (vfsRead s.vfs path kmalloc).2 := by
            simp [sysOpenw, hpath, hdev, ramfsCreat, hsame.ramfs, hfind, hslot]
          rw [hopen, unchanged_read_iff hsame]
          simp
      | some r =>
          have hunused := unused_of_free hslot
          have hopen : (sysOpenw s tid cwd raw kmalloc kmalloc').1 =
              s.setVfs { (vfsRead s.vfs path kmalloc).2 with
                ramfs := Function.update s.vfs.ramfs r
                  (reload ((s.vfs.ramfs r).fill path) kmalloc'
                    (existing (vfsRead s.vfs path kmalloc).1)) } := by
            simp only [sysOpenw, hpath, hdev, Bool.false_eq_true, if_false, ramfsCreat, hsame.ramfs,
              hfind, hslot]
            rw [← preallocate_reload s.vfs.ramfs r (e := (s.vfs.ramfs r).fill path) rfl]
            exact congrArg Prod.fst (fdAllocRamw_full tid r hfree _)
          have hr := reload_used ((s.vfs.ramfs r).fill path) kmalloc'
            (existing (vfsRead s.vfs path kmalloc).1)
          rw [hopen, unchanged_session_iff hsame (Or.inl hunused)
            (Or.inr (by rw [hr.2]; exact fill_head _ hhead hlen)) (by rw [hr.1]; rfl)]
          simp [hunused]

theorem openwKeeps_iff :
    ((sysOpenw s tid cwd raw kmalloc kmalloc').2 = -1 →
        Unchanged s (sysOpenw s tid cwd raw kmalloc kmalloc').1) ↔
      OpenwKeeps s cwd raw kmalloc kmalloc' := by
  unfold OpenwKeeps
  cases hpath : userPath cwd raw with
  | none =>
      have hopen : sysOpenw s tid cwd raw kmalloc kmalloc' = (s, -1) := by simp [sysOpenw, hpath]
      rw [hopen]
      simpa using Unchanged.refl s
  | some path =>
      simp only [Option.some.injEq, forall_eq']
      have hsame := vfsRead_sameFiles s.vfs path kmalloc
      cases hdev : isDevnull path with
      | true =>
          have hopen : sysOpenw s tid cwd raw kmalloc kmalloc' = fdAllocNull s tid := by
            simp [sysOpenw, hpath, hdev]
          rw [hopen]
          refine iff_of_true (fun hfail => ?_) nofun
          cases hfree : freeSlot s with
          | none =>
              rw [fdAllocNull, fdFill_full _ _ hfree]
              exact .refl s
          | some i => exact absurd hfail (fdFill_free _ _ hfree)
      | false =>
          cases hfree : freeSlot s with
          | none =>
              simp only [true_or, forall_const]
              rw [← unchanged_openw_iff tid hfree hpath hdev]
              refine imp_iff_right ?_
              simp only [sysOpenw, hpath, hdev, Bool.false_eq_true, if_false]
              split
              · rfl
              · exact congrArg Prod.snd (fdAllocRamw_full tid _ hfree _)
          | some i =>
              simp only [reduceCtorEq, false_or, false_imp_iff, and_true, forall_const]
              by_cases hfull : ramfsFind s.vfs.ramfs path = none ∧ ramfsFree s.vfs.ramfs = none
              · have hopen : sysOpenw s tid cwd raw kmalloc kmalloc' =
                    (s.setVfs (vfsRead s.vfs path kmalloc).2, -1) := by
                  simp [sysOpenw, hpath, hdev, ramfsCreat, hsame.ramfs, hfull.1, hfull.2]
                rw [hopen, unchanged_read_iff hsame]
                simp [hfull]
              · refine iff_of_true (fun hfail => ?_) (fun h => absurd h hfull)
                revert hfail
                simp only [sysOpenw, hpath, hdev, Bool.false_eq_true, if_false]
                split
                · rename_i hcreat
                  refine absurd ?_ hfull
                  unfold ramfsCreat at hcreat
                  rw [hsame.ramfs] at hcreat
                  cases hfind : ramfsFind s.vfs.ramfs path with
                  | some r => simp [hfind] at hcreat
                  | none =>
                      cases hslot : ramfsFree s.vfs.ramfs with
                      | some r => simp [hfind, hslot] at hcreat
                      | none => exact ⟨rfl, rfl⟩
                · exact fun hfail => absurd hfail (fdAllocRamw_free tid _ hfree _)

end Calls

/-- A failed `SYS_CREAT` or `SYS_OPENW` changes nothing exactly under these
conditions. -/
theorem failedOpen_unchanged_iff (s : Sys) (tid : Nat) (cwd : List UInt8)
    (raw : Option (List UInt8)) (kmalloc kmalloc' : Option Nat) :
    (((sysCreat s tid cwd raw).2 = -1 → Unchanged s (sysCreat s tid cwd raw).1) ↔
        CreatKeeps s cwd raw) ∧
      (((sysOpenw s tid cwd raw kmalloc kmalloc').2 = -1 →
          Unchanged s (sysOpenw s tid cwd raw kmalloc kmalloc').1) ↔
        OpenwKeeps s cwd raw kmalloc kmalloc') :=
  ⟨creatKeeps_iff, openwKeeps_iff⟩

/-- All descriptors are in use and no session file is. `SYS_CREAT` of `/a` fails and
leaves a session file behind. -/
theorem failedOpen_takes_slot :
    let s : Sys :=
      ⟨fun _ => Pipe.zero, fun i => ⟨true, i, 1, .null, 0, 0, 0, none, none⟩, Vfs.boot []⟩
    ¬ ((sysCreat s 2 [slash] (some [slash, 97])).2 = -1 →
      Unchanged s (sysCreat s 2 [slash] (some [slash, 97])).1) := by
  intro s h
  have hslot := (h (by decide)).slots ⟨0, by decide⟩
  revert hslot
  decide

end FiFi.Vfs
