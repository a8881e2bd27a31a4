import FiFi.Vfs.Components
import FiFi.Vfs.FileMap

/-!
# Which file a path names

The handlers of `SYS_OPEN`, `SYS_FILESIZE`, `SYS_MKDIR`, `SYS_UNLINK` and
`SYS_CHDIR` send the string of the process through `path_resolve`. Those of
`SYS_STAT`, `SYS_RENAME` and `SYS_LISTDIR` hand it to the VFS as it is, so they
do not know the working directory and do not see `.` and `..`.

The string has been copied in and has at most 255 bytes.
-/

namespace FiFi.Vfs

open FiFi.Fd

/-! ### The handlers -/

/-- The size of the path buffers of the handlers. -/
def pathCap : Nat := 256

/-- A handler that resolves its string first. -/
def resolved {α : Type*} (cwd raw : List UInt8) (fail : α) (call : List UInt8 → α) : α :=
  match pathResolve pathCap cwd raw with
  | none => fail
  | some path => call path

/-- The file that `SYS_OPEN` opens. -/
def sysOpenFile (s : Vfs) (cwd raw : List UInt8) (kmalloc : Option Nat) :
    Option (Option Buf × Nat) × Vfs :=
  resolved cwd raw (none, s) fun path => vfsRead s path kmalloc

/-- `SYS_FILESIZE`. -/
def sysFilesize (s : Vfs) (cwd raw : List UInt8) : Int × Vfs :=
  resolved cwd raw (-1, s) fun path => vfsFilesize s path

/-- `SYS_MKDIR`. -/
def sysMkdir (s : Vfs) (cwd raw : List UInt8) (now : Nat) : Bool × Vfs :=
  resolved cwd raw (false, s) fun path => vfsMkdir s path now

/-- `SYS_UNLINK`. -/
def sysUnlink (s : Vfs) (cwd raw : List UInt8) : Bool × Vfs :=
  resolved cwd raw (false, s) fun path => vfsDelete s path

/-- `SYS_CHDIR`: the new working directory. -/
def sysChdir (s : Vfs) (cwd raw : List UInt8) : List UInt8 :=
  resolved cwd raw cwd fun path => if (vfsIsdir s path).1 then path.take 255 else cwd

/-- `struct fifi_stat`; the mode is 1 for a directory. -/
structure Stat where
  size : Nat
  mode : Nat
  deriving DecidableEq, Repr

/-- `SYS_STAT`. -/
def sysStat (s : Vfs) (path : List UInt8) : Option Stat × Vfs :=
  let r := vfsIsdir s path
  if r.1 then (some ⟨0, 1⟩, r.2)
  else
    let q := vfsFilesize r.2 path
    if q.1 < 0 then (none, q.2) else (some ⟨q.1.toNat, 0⟩, q.2)

/-- `sizeof(rename_buf)`. -/
def renameBuf : Nat := 256 * 1024

/-- `SYS_RENAME`. The content goes through a static buffer. -/
def sysRename (s : Vfs) (old new : List UInt8) (kmalloc kmalloc' : Option Nat) (now : Nat) :
    Bool × Vfs :=
  match vfsRead s old kmalloc with
  | (none, s) => (false, s)
  | (some (data, size), s) =>
      let bytes := (data.elim [] Buf.bytes).take (min size renameBuf)
      match vfsWrite s new (.bytes bytes) kmalloc' now with
      | (false, s) => (false, s)
      | (true, s) => (true, (vfsDelete s old).2)

/-- `SYS_LISTDIR` for a buffer of `cap` bytes. -/
def sysListdir (s : Vfs) (path : List UInt8) (cap : Nat) : List UInt8 × Vfs :=
  vfsListdir s path (min cap 8192)

/-! ### Agreement -/

/-- The working directories of a process. -/
inductive CwdReach : List UInt8 → Prop
  | root : CwdReach [slash]
  | chdir (s : Vfs) {cwd : List UInt8} (raw : List UInt8) :
      CwdReach cwd → CwdReach (sysChdir s cwd raw)

/-- On every state of the layers the handlers do for the string what they do for
its normal form. -/
structure ActsAs (cwd raw path : List UInt8) : Prop where
  opens : ∀ s kmalloc, sysOpenFile s cwd raw kmalloc = sysOpenFile s cwd path kmalloc
  filesize : ∀ s, sysFilesize s cwd raw = sysFilesize s cwd path
  mkdir : ∀ s now, sysMkdir s cwd raw now = sysMkdir s cwd path now
  unlink : ∀ s, sysUnlink s cwd raw = sysUnlink s cwd path
  stat : ∀ s, sysStat s raw = sysStat s path
  renameFrom : ∀ s new kmalloc kmalloc' now,
    sysRename s raw new kmalloc kmalloc' now = sysRename s path new kmalloc kmalloc' now
  renameTo : ∀ s old kmalloc kmalloc' now,
    sysRename s old raw kmalloc kmalloc' now = sysRename s old path kmalloc kmalloc' now
  listdir : ∀ s cap, sysListdir s raw cap = sysListdir s path cap

/-- All handlers act on the file that `path_resolve` names. -/
def NamesOneFile (cwd raw : List UInt8) : Prop :=
  ∃ path, pathResolve pathCap cwd raw = some path ∧ ActsAs cwd raw path

/-- The string is the root, or it is absolute or used in the root directory, and
what follows its leading slashes is already normal and leaves room for a slash. -/
def NormalAtRoot (cwd raw : List UInt8) : Prop :=
  raw = [slash] ∨
    (raw.head? = some slash ∨ cwd = [slash]) ∧
      (raw = [] ∨
        (vfsNormPath raw).length < 255 ∧ ∀ c ∈ (vfsNormPath raw).splitOn slash, Plain c)

/-! ### Working directories -/

/-- A path that `path_resolve` returns. -/
def Resolved (p : List UInt8) : Prop := ∃ cs, Proper cs ∧ p = pathOf cs ∧ p.length < 256

theorem resolved_of_pathResolve {cwd raw p : List UInt8}
    (h : pathResolve pathCap cwd raw = some p) : Resolved p := by
  obtain ⟨hproper, hp⟩ := pathResolve_some h
  exact ⟨_, hproper, hp, pathResolve_length h⟩

theorem CwdReach.isResolved {cwd : List UInt8} (h : CwdReach cwd) : Resolved cwd := by
  induction h with
  | root => exact ⟨[], proper_nil, rfl, by decide⟩
  | chdir s raw _ ih =>
      unfold sysChdir Vfs.resolved
      split
      · exact ih
      · rename_i p hp
        dsimp only
        split
        · have hres := resolved_of_pathResolve hp
          rw [List.take_of_length_le]
          · exact hres
          · obtain ⟨cs, -, -, hlen⟩ := hres
            omega
        · exact ih

/-- A resolved path resolves to itself. -/
theorem Resolved.pathResolve_self {p : List UInt8} (h : Resolved p) (cwd : List UInt8) :
    pathResolve pathCap cwd p = some p := by
  obtain ⟨cs, hproper, rfl, hlen⟩ := h
  have hnorm := vfsNormPath_pathOf hproper
  by_cases hcs : cs = []
  · subst hcs
    rfl
  · have hplain : ∀ c ∈ (vfsNormPath (pathOf cs)).splitOn slash, Plain c := by
      rw [hnorm, splitOn_intercalate_proper hproper hcs]
      exact fun c hc => (hproper c hc).1
    have hfit : (vfsNormPath (pathOf cs)).length < 255 := by
      simp only [pathOf, List.length_cons] at hlen
      rw [hnorm]
      omega
    have hself := pathResolve_plain cwd hlen hfit (Or.inl rfl) hplain
    rwa [hnorm] at hself

/-! ### Strings with the same normal form -/

theorem vfsRead_congr {p q : List UInt8} (h : vfsNormPath p = vfsNormPath q) (s : Vfs)
    (kmalloc : Option Nat) : vfsRead s p kmalloc = vfsRead s q kmalloc := by
  simp only [vfsRead, h]

theorem vfsWrite_congr {p q : List UInt8} (h : vfsNormPath p = vfsNormPath q) (s : Vfs)
    (src : Source) (kmalloc : Option Nat) (now : Nat) :
    vfsWrite s p src kmalloc now = vfsWrite s q src kmalloc now := by
  simp only [vfsWrite, h]

theorem vfsDelete_congr {p q : List UInt8} (h : vfsNormPath p = vfsNormPath q) (s : Vfs) :
    vfsDelete s p = vfsDelete s q := by
  simp only [vfsDelete, h]

theorem sysStat_congr {p q : List UInt8} (h : vfsNormPath p = vfsNormPath q) (s : Vfs) :
    sysStat s p = sysStat s q := by
  simp only [sysStat, vfsIsdir, vfsFilesize, h]

theorem sysRename_congr_old {p q : List UInt8} (h : vfsNormPath p = vfsNormPath q) (s : Vfs)
    (new : List UInt8) (kmalloc kmalloc' : Option Nat) (now : Nat) :
    sysRename s p new kmalloc kmalloc' now = sysRename s q new kmalloc kmalloc' now := by
  simp only [sysRename, vfsRead_congr h, vfsDelete_congr h]

theorem sysRename_congr_new {p q : List UInt8} (h : vfsNormPath p = vfsNormPath q) (s : Vfs)
    (old : List UInt8) (kmalloc kmalloc' : Option Nat) (now : Nat) :
    sysRename s old p kmalloc kmalloc' now = sysRename s old q kmalloc kmalloc' now := by
  simp only [sysRename, vfsWrite_congr h]

theorem components_slash (l : List UInt8) :
    Ext2.components (slash :: l) = Ext2.components l := by
  have hs : slash = Ext2.slash := rfl
  simp [Ext2.components, Ext2.componentsFrom, hs]

theorem components_norm (l : List UInt8) :
    Ext2.components (vfsNormPath l) = Ext2.components l := by
  induction l with
  | nil => rfl
  | cons x l ih =>
      by_cases hx : x = slash
      · subst hx
        rw [vfsNormPath_slash, ih, components_slash]
      · rw [vfsNormPath_of_head_ne (by simpa using hx)]

/-- The volume does not see how many slashes a path starts with. -/
theorem ext2_resolve_norm (s : Ext2.Fs) (l : List UInt8) :
    Ext2.resolve s (slash :: l) = Ext2.resolve s (slash :: vfsNormPath l) := by
  have hs : slash = Ext2.slash := rfl
  simp only [Ext2.resolve, hs, if_true, components_norm]

theorem lsBufAt_congr {s : Ext2.Fs} {p q : List UInt8} (h : Ext2.resolve s p = Ext2.resolve s q)
    (cap : Nat) : Ext2.lsBufAt s p cap = Ext2.lsBufAt s q cap := by
  simp only [Ext2.lsBufAt, h]

/-- What `vfs_listdir` does for a string that is not the root. -/
theorem vfsListdir_eq {p : List UInt8} (hne : vfsNormPath p ≠ []) (hlen : p.length < 256)
    (s : Vfs) (cap : Nat) :
    vfsListdir s p cap =
      if cap = 0 then ([], s)
      else if s.ext2.ready then
        ((Ext2.lsBufAt s.ext2 (slash :: vfsNormPath p) cap).1,
          { s with ext2 := (Ext2.lsBufAt s.ext2 (slash :: vfsNormPath p) cap).2 })
      else ([], s) := by
  have hroot : ¬ (p = [] ∨ p = [slash]) := by
    rintro (rfl | rfl) <;> exact hne rfl
  unfold vfsListdir
  rw [if_neg hroot]
  have hfull : Ext2.resolve s.ext2
      (if p.head? = some slash then p.take 257 else slash :: p.take 256) =
        Ext2.resolve s.ext2 (slash :: vfsNormPath p) := by
    by_cases hhead : p.head? = some slash
    · rw [if_pos hhead, List.take_of_length_le (by omega)]
      cases p with
      | nil => cases hhead
      | cons x p =>
          obtain rfl : x = slash := by simpa using hhead
          rw [ext2_resolve_norm, vfsNormPath_slash]
    · rw [if_neg hhead, List.take_of_length_le (by omega), ext2_resolve_norm]
  simp only [lsBufAt_congr hfull]

/-! ### States that tell two paths apart -/

/-- One empty session file. -/
def oneFile (name : List UInt8) : Ramfs :=
  Function.update ramfsInit ⟨0, by decide⟩ (RamfsEntry.zero.fill name)

theorem ramfsGet_oneFile {name : List UInt8} (hlen : name.length < ramfsNameMax) (n : List UInt8) :
    ramfsGet (oneFile name) n = if name = n then some (none, 0) else none := by
  have hunique : UniqueNames ramfsInit := fun i j k hi => by cases hi
  have hnew : UniqueNames (oneFile name) :=
    (KeyedTable.Unique.update_iff hunique).2 fun k _ j _ hj => by cases hj
  have hkey := entryKey_fill RamfsEntry.zero name
  rw [rfStrcpy_of_short hlen] at hkey
  rw [oneFile, hunique.ramfsGet_update hnew, hkey]
  simp only [Option.some.injEq]
  split
  · rfl
  · have hinit : ramfsGet ramfsInit n = none := ramfsGet_none_iff.2 fun i hi => by cases hi
    rw [hinit]
    split <;> rfl

/-- `SYS_STAT` tells names apart. -/
theorem normPath_eq_of_stat {p q : List UInt8} (hlen : (vfsNormPath q).length < ramfsNameMax)
    (h : ∀ s, sysStat s p = sysStat s q) : vfsNormPath p = vfsNormPath q := by
  have hs := congrArg Prod.fst (h { Vfs.boot [] with ramfs := oneFile (vfsNormPath q) })
  by_cases hq : vfsNormPath q = []
  · by_contra hne
    have hp : vfsNormPath p ≠ [] := fun hp => hne (hp.trans hq.symm)
    have hb := congrArg Prod.fst (h (Vfs.boot []))
    have hget : ramfsGet ramfsInit (vfsNormPath p) = none :=
      ramfsGet_none_iff.2 fun i hi => by cases hi
    simp [sysStat, vfsIsdir, vfsFilesize, Vfs.boot, noVolume, hp, hq, hget] at hb
  · by_contra hne
    by_cases hp : vfsNormPath p = []
    · simp [sysStat, vfsIsdir, vfsFilesize, Vfs.boot, noVolume, hp, hq, ramfsGet_oneFile hlen,
        cInt] at hs
    · simp [sysStat, vfsIsdir, vfsFilesize, Vfs.boot, noVolume, hp, hq, ramfsGet_oneFile hlen,
        cInt, Ne.symm hne] at hs

/-- `SYS_LISTDIR` tells the root from its other spellings. -/
theorem root_of_listdir {p : List UInt8}
    (h : ∀ s cap, sysListdir s p cap = sysListdir s [slash] cap) : p = [] ∨ p = [slash] := by
  by_contra hroot
  have hs := congrArg Prod.fst (h { Vfs.boot [] with ramfs := oneFile [97] } 8192)
  have hlist : (sysListdir { Vfs.boot [] with ramfs := oneFile [97] } [slash] 8192).1 =
      [97, 10] := by
    decide
  rw [hlist] at hs
  simp [sysListdir, vfsListdir, Vfs.boot, noVolume, hroot] at hs

/-! ### When the handlers agree -/

theorem actsAs_of_resolve {cwd raw p : List UInt8} (hp : pathResolve pathCap cwd raw = some p)
    (hnorm : vfsNormPath raw = vfsNormPath p)
    (hlist : ∀ s cap, sysListdir s raw cap = sysListdir s p cap) : ActsAs cwd raw p := by
  have hself := (resolved_of_pathResolve hp).pathResolve_self cwd
  have hsame : ∀ {α : Type} (fail : α) (call : List UInt8 → α),
      Vfs.resolved cwd raw fail call = Vfs.resolved cwd p fail call := by
    intro α fail call
    simp only [Vfs.resolved, hp, hself]
  exact {
    opens := fun s kmalloc => hsame _ _
    filesize := fun s => hsame _ _
    mkdir := fun s now => hsame _ _
    unlink := fun s => hsame _ _
    stat := sysStat_congr hnorm
    renameFrom := sysRename_congr_old hnorm
    renameTo := sysRename_congr_new hnorm
    listdir := hlist }

theorem namesOneFile_of_plain {cwd raw : List UInt8} (hlen : raw.length < 256)
    (hroot : raw.head? = some slash ∨ cwd = [slash]) (hfit : (vfsNormPath raw).length < 255)
    (hplain : ∀ c ∈ (vfsNormPath raw).splitOn slash, Plain c) : NamesOneFile cwd raw := by
  have hp := pathResolve_plain _ hlen hfit hroot hplain
  have hne : vfsNormPath raw ≠ [] := by
    intro hnil
    rw [hnil, List.splitOn_nil] at hplain
    exact (hplain [] List.mem_cons_self).1 rfl
  have hnorm : vfsNormPath (slash :: vfsNormPath raw) = vfsNormPath raw := by
    rw [vfsNormPath_slash]
    exact List.dropWhile_idempotent _ _
  refine ⟨_, hp, actsAs_of_resolve hp hnorm.symm fun s cap => ?_⟩
  have hshort : (slash :: vfsNormPath raw).length < 256 := by
    rw [List.length_cons]
    omega
  rw [sysListdir, sysListdir, vfsListdir_eq hne hlen, vfsListdir_eq (hnorm.symm ▸ hne) hshort, hnorm]

/-- The components of a string that is not the root, from those of the working
directory on. -/
theorem normalComps_relative {cs : List (List UInt8)} {raw : List UInt8} (hcs : Proper cs)
    (hhead : raw.head? ≠ some slash) (hlen : (pathOf cs).length + raw.length + 1 < pathBuf) :
    normalComps (pathOf cs) raw = (raw.splitOn slash).foldl pushComp cs := by
  by_cases hne : cs = []
  · subst hne
    rw [normalComps, show pathOf [] = [slash] from rfl, allComps_root hhead (by omega)]
  · rw [normalComps, allComps_relative hcs hne hhead hlen, List.foldl_append,
      foldl_pushComp_plain fun c hc => (hcs c hc).1, List.nil_append]

/-- In every working directory a process can reach, the handlers act on one file for
a string exactly when the string is normal at the root. -/
theorem namesOneFile_iff {cwd raw : List UInt8} (hcwd : CwdReach cwd) (hlen : raw.length ≤ 255) :
    NamesOneFile cwd raw ↔ NormalAtRoot cwd raw := by
  obtain ⟨cs, hcs, rfl, hcwdlen⟩ := hcwd.isResolved
  constructor
  · rintro ⟨p, hp, hacts⟩
    obtain ⟨hproper, hpath⟩ := pathResolve_some hp
    have hplen : p.length < 256 := pathResolve_length hp
    have hpnorm : vfsNormPath p = [slash].intercalate (normalComps (pathOf cs) raw) := by
      rw [hpath, vfsNormPath_pathOf hproper]
    have hfit : (vfsNormPath p).length < 255 := by
      rw [hpath, pathOf, List.length_cons] at hplen
      rw [hpnorm]
      omega
    have hnorm := normPath_eq_of_stat (by unfold ramfsNameMax; omega) hacts.stat
    by_cases hroot : raw = [slash]
    · exact Or.inl hroot
    refine Or.inr ?_
    by_cases hnil : vfsNormPath raw = []
    · -- only the empty string is left, and the directory it names is the root
      have hcomps : normalComps (pathOf cs) raw = [] :=
        intercalate_eq_nil hproper (hpnorm ▸ hnorm ▸ hnil)
      have hpslash : p = [slash] := by rw [hpath, hcomps]; rfl
      have hempty : raw = [] := (root_of_listdir (hpslash ▸ hacts.listdir)).resolve_right hroot
      subst hempty
      rw [normalComps_relative hcs (by simp) (by simp only [List.length_nil, pathBuf]; omega)] at hcomps
      have hcs0 : cs = [] := by simpa [pushComp] using hcomps
      exact ⟨Or.inr (by rw [hcs0]; rfl), Or.inl rfl⟩
    · have hcne : normalComps (pathOf cs) raw ≠ [] := by
        intro hcomps
        rw [hnorm, hpnorm, hcomps] at hnil
        exact hnil rfl
      have hsplit : (vfsNormPath raw).splitOn slash = normalComps (pathOf cs) raw := by
        rw [hnorm, hpnorm, splitOn_intercalate_proper hproper hcne]
      have hplain : ∀ c ∈ (vfsNormPath raw).splitOn slash, Plain c := by
        rw [hsplit]
        exact fun c hc => (hproper c hc).1
      refine ⟨?_, Or.inr ⟨hnorm ▸ hfit, hplain⟩⟩
      by_cases hhead : raw.head? = some slash
      · exact Or.inl hhead
      · -- the components of the working directory stand before those of the string
        rw [vfsNormPath_of_head_ne hhead] at hsplit hplain
        rw [normalComps_relative hcs hhead (by unfold pathBuf; omega),
          foldl_pushComp_plain hplain] at hsplit
        have hcs0 : cs = [] := List.self_eq_append_left.1 hsplit
        exact Or.inr (by rw [hcs0]; rfl)
  · rintro (rfl | ⟨hroot, rfl | ⟨hfit, hplain⟩⟩)
    · have hp : pathResolve pathCap (pathOf cs) [slash] = some [slash] := rfl
      exact ⟨_, hp, actsAs_of_resolve hp rfl fun _ _ => rfl⟩
    · have hcwd : pathOf cs = [slash] := hroot.resolve_left (by simp)
      rw [hcwd]
      have hp : pathResolve pathCap [slash] [] = some [slash] := rfl
      refine ⟨_, hp, actsAs_of_resolve hp rfl fun s cap => ?_⟩
      simp [sysListdir, vfsListdir]
    · exact namesOneFile_of_plain (by omega) hroot hfit hplain

/-- In the root directory, `/a` is one file for all handlers. -/
theorem namesOneFile_absolute :
    CwdReach [slash] ∧ NormalAtRoot [slash] [slash, 97] ∧ NamesOneFile [slash] [slash, 97] := by
  have hnormal : NormalAtRoot [slash] [slash, 97] :=
    Or.inr ⟨Or.inl rfl, Or.inr ⟨by decide, by decide⟩⟩
  exact ⟨.root, hnormal, (namesOneFile_iff .root (by decide)).2 hnormal⟩

/-- In the root directory, `./a` is the file `a` for `SYS_OPEN` and a file of the
name `./a` for `SYS_STAT`. -/
theorem namesOneFile_dot : CwdReach [slash] ∧ ¬ NamesOneFile [slash] [dot, slash, 97] := by
  refine ⟨.root, ?_⟩
  rintro ⟨p, hp, hacts⟩
  have hres : pathResolve pathCap [slash] [dot, slash, 97] = some [slash, 97] := by
    decide
  obtain rfl := Option.some.inj (hp.symm.trans hres)
  have hstat := congrArg Prod.fst (hacts.stat { Vfs.boot [] with ramfs := oneFile [97] })
  revert hstat
  decide

end FiFi.Vfs
