import FiFi.Ext2.Read
import FiFi.Ext2.Mkdir

/-!
# The parent of a path

`e2_split_path` cuts a path at its last slash. What follows is looked up in the
directory of the part before: the components of a path are those of its parent
and those of its name. A name of at most 255 characters is one component.
-/

namespace FiFi.Ext2

open ByteStore

/-! ### Components -/

/-- The components on the two sides of a slash. -/
theorem componentsFrom_append_slash (cur p q : List UInt8) :
    componentsFrom cur (p ++ slash :: q) = componentsFrom cur p ++ components q := by
  induction p generalizing cur with
  | nil =>
      unfold components
      simp only [List.nil_append, componentsFrom, if_true]
      split <;> simp
  | cons c p ih =>
      simp only [List.cons_append, componentsFrom]
      split
      · split
        · exact ih []
        · rw [ih, List.cons_append]
      · split
        · exact ih _
        · rw [ih, List.cons_append]

/-- A component goes on to the next slash or to its end at 255 characters. -/
theorem componentsFrom_short {cur q : List UInt8} (hslash : slash ∉ q)
    (hlen : (cur ++ q).length ≤ 255) (hne : cur ++ q ≠ []) :
    componentsFrom cur q = [cur ++ q] := by
  induction q generalizing cur with
  | nil =>
      rw [List.append_nil] at hne ⊢
      simp [componentsFrom, hne]
  | cons c q ih =>
      obtain ⟨hc, hq⟩ := not_or.1 (fun h => hslash (List.mem_cons.2 h))
      have happ : cur ++ c :: q = (cur ++ [c]) ++ q := by simp
      have hlt : cur.length < 255 := by
        rw [List.length_append, List.length_cons] at hlen
        omega
      rw [componentsFrom, if_neg (Ne.symm hc), if_pos hlt, happ]
      exact ih hq (by rwa [← happ]) (by simp)

theorem components_short {name : List UInt8} (hslash : slash ∉ name) (hlen : name.length ≤ 255)
    (hne : name ≠ []) : components name = [name] :=
  @componentsFrom_short [] _ hslash hlen hne

/-- What is being read becomes a component. -/
theorem componentsFrom_ne_nil {cur : List UInt8} (h : cur ≠ []) (q : List UInt8) :
    componentsFrom cur q ≠ [] := by
  induction q generalizing cur with
  | nil => simp [componentsFrom, h]
  | cons c q ih =>
      unfold componentsFrom
      split
      · simp
      · split
        · exact ih (by simp)
        · simp

theorem components_ne_nil {name : List UInt8} (hslash : slash ∉ name) (hne : name ≠ []) :
    components name ≠ [] := by
  cases name with
  | nil => exact absurd rfl hne
  | cons c q =>
      have hc : c ≠ slash := fun h => hslash (h ▸ List.mem_cons_self)
      have hlt : ([] : List UInt8).length < 255 := by simp
      unfold components
      rw [componentsFrom, if_neg hc, if_pos hlt]
      exact componentsFrom_ne_nil (by simp) q

/-! ### The last slash -/

theorem slash_notMem_baseName (path : List UInt8) : slash ∉ baseName path := by
  unfold baseName
  intro h
  have hmem := List.mem_takeWhile_imp (List.mem_reverse.1 h)
  simp at hmem

/-- A path is what comes before its last slash, the slash and the name. -/
theorem exists_append_baseName {path : List UInt8} (h : slash ∈ path) :
    ∃ d, path = d ++ slash :: baseName path := by
  have hsplit := List.takeWhile_append_dropWhile (p := fun c => decide (c ≠ slash))
    (l := path.reverse)
  have hne : path.reverse.dropWhile (fun c => decide (c ≠ slash)) ≠ [] := by
    intro hnil
    rw [List.dropWhile_eq_nil_iff] at hnil
    simpa using hnil slash (List.mem_reverse.2 h)
  have hhead := List.head_dropWhile_not (fun c => decide (c ≠ slash)) hne
  generalize hrest : path.reverse.dropWhile (fun c => decide (c ≠ slash)) = rest at *
  cases rest with
  | nil => exact absurd rfl hne
  | cons c rest =>
      obtain rfl : c = slash := by
        by_contra hc
        simp [hc] at hhead
      refine ⟨rest.reverse, ?_⟩
      have hrev := congrArg List.reverse hsplit
      rw [List.reverse_append, List.reverse_cons, List.reverse_reverse, List.append_assoc] at hrev
      exact hrev.symm

/-- What `e2_split_path` gives. -/
structure SplitsTo (path parent name : List UInt8) : Prop where
  slash_notMem : slash ∉ name
  ne_nil : name ≠ []
  parent : ∃ p, parent = slash :: p ∧ ∃ q, path = slash :: q ∧
    components q = components p ++ components name

theorem splitPath_spec {path parent name : List UInt8}
    (h : splitPath path = some (parent, name)) : SplitsTo path parent name := by
  unfold splitPath at h
  split at h
  · cases h
  · rename_i hhead
    dsimp only at h
    split at h
    · cases h
    · split at h
      · cases h
      · rename_i hne
        obtain ⟨rfl, rfl⟩ := Prod.mk.inj (Option.some.inj h)
        cases path with
        | nil => simp at hhead
        | cons c q =>
            obtain rfl : c = slash := by simpa using hhead
            obtain ⟨d, hd⟩ := @exists_append_baseName (slash :: q) (by simp)
            have hbase := slash_notMem_baseName (slash :: q)
            generalize hname : baseName (slash :: q) = name at *
            have hlast : (slash :: q).length - name.length - 1 = d.length := by
              rw [hd, List.length_append, List.length_cons]
              omega
            rw [hlast]
            refine ⟨hbase, hne, ?_⟩
            cases d with
            | nil =>
                obtain rfl : q = name := by simpa using hd
                exact ⟨[], by simp, q, rfl, by simp [components, componentsFrom]⟩
            | cons c d =>
                obtain ⟨hc, hq⟩ := List.cons.inj hd
                subst hc
                refine ⟨d, ?_, q, rfl, ?_⟩
                · rw [if_neg (by simp), hd, List.take_left]
                · rw [hq]
                  exact componentsFrom_append_slash [] d name

/-! ### Resolving -/

namespace Vol

variable {v : Vol} {path parent name : List UInt8}

theorem resolve_slash (v : Vol) (q : List UInt8) :
    v.resolve (slash :: q) = v.resolveFrom 2 (components q) := by
  simp [resolve]

/-- A path is resolved from where its parent is. -/
theorem resolve_split (h : SplitsTo path parent name) (hp : v.resolve parent ≠ 0) :
    v.resolve path = v.resolveFrom (v.resolve parent) (components name) := by
  obtain ⟨p, rfl, q, rfl, hcomps⟩ := h.parent
  rw [resolve_slash] at hp ⊢
  rw [resolve_slash, hcomps, resolveFrom_append _ _ hp]

/-- Where a path resolves, its parent does. -/
theorem resolve_parent_ne_zero (h : SplitsTo path parent name) (hp : v.resolve path ≠ 0) :
    v.resolve parent ≠ 0 := by
  obtain ⟨p, rfl, q, rfl, hcomps⟩ := h.parent
  rw [resolve_slash, hcomps] at hp
  rw [resolve_slash]
  exact resolveFrom_append_ne_zero (by decide) hp

/-- A name is looked up in the directory of the parent. -/
theorem resolve_name (h : SplitsTo path parent name) (hlen : name.length ≤ 255)
    (hp : v.resolve parent ≠ 0) {dir : Bytes} (hdir : v.inode (v.resolve parent) = some dir)
    (hd : isDirMode dir = true) : v.resolve path = v.lookup dir name := by
  rw [resolve_split h hp, components_short h.slash_notMem hlen h.ne_nil, resolveFrom_cons hdir hd]
  split
  · rename_i h0
    exact h0.symm
  · rfl

/-- Nothing resolves below what is no directory. -/
theorem resolve_below_file (h : SplitsTo path parent name) (hp : v.resolve parent ≠ 0)
    {i : Bytes} (hi : v.inode (v.resolve parent) = some i) (hd : isDirMode i = false) :
    v.resolve path = 0 := by
  rw [resolve_split h hp]
  by_contra hne
  cases hcomps : components name with
  | nil => exact components_ne_nil h.slash_notMem h.ne_nil hcomps
  | cons comp comps =>
      rw [hcomps] at hne
      obtain ⟨j, hj, hjd, -⟩ := resolveFrom_cons_ne_zero hne
      rw [hi] at hj
      obtain rfl := Option.some.inj hj
      rw [hd] at hjd
      cases hjd

end Vol

end FiFi.Ext2

/-!
## The calls after the paths are resolved

`ext2_write_file`, `ext2_mkdir` and `ext2_delete_file` begin in the same way: they
split the path, resolve the parent and then the path itself. Nothing is written
before. What they do then depends on the inodes that were found.
-/

namespace FiFi.Ext2

open ByteStore

variable {s t : Fs}

/-! ### What is left of a call -/

/-- `ext2_write_file` for a path that does not exist. -/
def createIn (s : Fs) (parentIno : Nat) (name data : List UInt8) (now : Nat) : Bool × Fs :=
  let a := allocInode s
  if a.1 = 0 then (false, a.2) else storeFile a.2 a.1 newFileInode true parentIno name data now

/-- `ext2_write_file` for a regular file. -/
def overwriteIn (s : Fs) (ino : Nat) (inode : Bytes) (parentIno : Nat) (name data : List UInt8)
    (now : Nat) : Bool × Fs :=
  let d := freeDirect s inode direct
  let f := freeIndirect d.2 d.1
  storeFile f.2 ino (setSize (setBlocks f.1 0) 0) false parentIno name data now

/-- `ext2_delete_file` for a regular file. -/
def deleteIn (s : Fs) (ino : Nat) (inode : Bytes) (parentIno : Nat) (name : List UInt8) :
    Bool × Fs :=
  let s := (freeIndirect (freeDirect s inode direct).2 inode).2
  let e := removeDirent s parentIno name
  if !e.1 then (false, e.2) else (true, freeInode e.2 ino)

theorem head_of_splitPath {path parent name : List UInt8}
    (h : splitPath path = some (parent, name)) : path.head? = some slash := by
  unfold splitPath at h
  split at h
  · cases h
  · rename_i hhead
    exact not_not.1 hhead

/-- The regular file at a path. -/
theorem fileInode_eq_some_iff (h : s.Ok) (hw : s.vol.Wf) {path : List UInt8} {i : Bytes} :
    fileInode s path = some i ↔
      s.vol.inode (s.vol.resolve path) = some i ∧ isFileMode i = true := by
  refine ⟨fileInode_spec h hw, fun ⟨hi, hf⟩ => ?_⟩
  obtain ⟨hreads, hres⟩ := resolve_spec h hw path
  have hne : s.vol.resolve path ≠ 0 := by
    intro h0
    rw [h0, inode_zero] at hi
    cases hi
  unfold fileInode
  rw [h.ready]
  dsimp only [Bool.not_true]
  rw [if_neg (by simp), if_neg (by rwa [hres]), readInode_eq (hreads.ok h), hreads.vol, hres, hi]
  simp [hf]

/-! ### The three calls -/

/-- The parent and the path are resolved one after the other. -/
theorem resolve_both (h : s.Ok) (hw : s.vol.Wf) (parent path : List UInt8) : ∃ r q : Nat × Fs, resolve s parent = r ∧ resolve r.2 path = q ∧
    s.Reads r.2 ∧ s.Reads q.2 ∧ r.1 = s.vol.resolve parent ∧ q.1 = s.vol.resolve path := by
  obtain ⟨hreads, hres⟩ := resolve_spec h hw parent
  generalize resolve s parent = r at hreads hres
  have hwr : r.2.vol.Wf := by
    rw [hreads.vol]
    exact hw
  obtain ⟨hreads', hres'⟩ := resolve_spec (hreads.ok h) hwr path
  rw [hreads.vol] at hres'
  exact ⟨r, _, rfl, rfl, hreads, hreads.trans hreads', hres, hres'⟩

section Calls

variable (h : s.Ok) (hw : s.vol.Wf) {path parent name : List UInt8}
  (hsplit : splitPath path = some (parent, name))

include h hw hsplit

/-- Then the inode is read, if there is one. -/
theorem resolve_inode {i : Bytes} (hi : s.vol.inode (s.vol.resolve path) = some i) :
    ∃ (r q : Nat × Fs) (u : Fs), resolve s parent = r ∧ r.1 = s.vol.resolve parent ∧ r.1 ≠ 0 ∧
      resolve r.2 path = q ∧ q.1 = s.vol.resolve path ∧ q.1 ≠ 0 ∧
      readInode q.2 q.1 = (some i, u) ∧ s.Reads u := by
  obtain ⟨r, q, hr, hq, -, hreads, hrv, hqv⟩ := resolve_both h hw parent path
  have hne : s.vol.resolve path ≠ 0 := by
    intro h0
    rw [h0, inode_zero] at hi
    cases hi
  have hp := Vol.resolve_parent_ne_zero (splitPath_spec hsplit) hne
  have hread := readInode_eq (hreads.ok h) q.1
  rw [hreads.vol, hqv, hi] at hread
  refine ⟨r, q, (readInode q.2 q.1).2, hr, hrv, by rwa [hrv], hq, hqv, by rwa [hqv], ?_,
    hreads.trans (readInode_reads _ _)⟩
  rw [hqv]
  exact Prod.ext hread rfl

theorem writeFile_noParent (hp : s.vol.resolve parent = 0) (data : List UInt8) (now : Nat) :
    (writeFile s path data now).1 = false ∧ s.Reads (writeFile s path data now).2 := by
  obtain ⟨r, q, hr, -, hreads, -, hrv, -⟩ := resolve_both h hw parent path
  unfold writeFile
  rw [if_neg (by simp [h.ready, head_of_splitPath hsplit]), hsplit]
  dsimp only
  rw [hr, if_pos (hrv.trans hp)]
  exact ⟨rfl, hreads⟩

/-- A path that does not exist is created. -/
theorem writeFile_new (hp : s.vol.resolve parent ≠ 0) (hnew : s.vol.resolve path = 0)
    (data : List UInt8) (now : Nat) :
    ∃ t, s.Reads t ∧ writeFile s path data now =
      createIn t (s.vol.resolve parent) (name.take 255) (s.img.geo.written data) now := by
  obtain ⟨r, q, hr, hq, hreads, hreads', hrv, hqv⟩ := resolve_both h hw parent path
  refine ⟨q.2, hreads', ?_⟩
  unfold writeFile
  rw [if_neg (by simp [h.ready, head_of_splitPath hsplit]), hsplit]
  dsimp only
  rw [hr, if_neg (by rwa [hrv]), hq, if_neg (by simp [hqv, hnew]), hrv]
  rfl

/-- A regular file is overwritten. -/
theorem writeFile_old {i : Bytes} (hi : s.vol.inode (s.vol.resolve path) = some i)
    (hf : isFileMode i = true) (data : List UInt8) (now : Nat) :
    ∃ t, s.Reads t ∧ writeFile s path data now =
      overwriteIn t (s.vol.resolve path) i (s.vol.resolve parent) (name.take 255)
        (s.img.geo.written data) now := by
  obtain ⟨r, q, u, hr, hrv, hr0, hq, hqv, hq0, hread, hreads⟩ := resolve_inode h hw hsplit hi
  refine ⟨u, hreads, ?_⟩
  unfold writeFile
  rw [if_neg (by simp [h.ready, head_of_splitPath hsplit]), hsplit]
  dsimp only
  rw [hr, if_neg hr0, hq, if_pos hq0, hread, hqv, hrv]
  simp only [hf, Bool.not_true, Bool.false_eq_true, if_false]
  rfl

/-- A path that does not name a regular file is refused. -/
theorem writeFile_other {i : Bytes} (hi : s.vol.inode (s.vol.resolve path) = some i)
    (hf : isFileMode i = false) (data : List UInt8) (now : Nat) :
    (writeFile s path data now).1 = false ∧ s.Reads (writeFile s path data now).2 := by
  obtain ⟨r, q, u, hr, -, hr0, hq, -, hq0, hread, hreads⟩ := resolve_inode h hw hsplit hi
  unfold writeFile
  rw [if_neg (by simp [h.ready, head_of_splitPath hsplit]), hsplit]
  dsimp only
  rw [hr, if_neg hr0, hq, if_pos hq0, hread]
  simp only [hf, Bool.not_false, if_true]
  exact ⟨trivial, hreads⟩

theorem mkdir_new (hp : s.vol.resolve parent ≠ 0) (hnew : s.vol.resolve path = 0) (now : Nat) :
    ∃ t, s.Reads t ∧ mkdir s path now =
      mkdirIn t (s.vol.resolve parent) (name.take 255) now := by
  obtain ⟨r, q, hr, hq, hreads, hreads', hrv, hqv⟩ := resolve_both h hw parent path
  refine ⟨q.2, hreads', ?_⟩
  rw [mkdir_eq, if_neg (by simp [h.ready, head_of_splitPath hsplit]), hsplit]
  dsimp only
  rw [hr, if_neg (by rwa [hrv]), hq, if_neg (by simp [hqv, hnew]), hrv]

/-- A regular file is deleted. -/
theorem deleteFile_file {i : Bytes} (hi : s.vol.inode (s.vol.resolve path) = some i)
    (hf : isFileMode i = true) :
    ∃ t, s.Reads t ∧ deleteFile s path =
      deleteIn t (s.vol.resolve path) i (s.vol.resolve parent) name := by
  obtain ⟨r, q, u, hr, hrv, hr0, hq, hqv, hq0, hread, hreads⟩ := resolve_inode h hw hsplit hi
  refine ⟨u, hreads, ?_⟩
  unfold deleteFile
  rw [if_neg (by simp [h.ready, head_of_splitPath hsplit]), hsplit]
  dsimp only
  rw [hr, if_neg hr0, hq, if_neg hq0, hread, hqv, hrv]
  simp only [hf, Bool.not_true, Bool.false_eq_true, if_false]
  rfl

end Calls

/-- What is no regular file is not deleted. -/
theorem deleteFile_noFile (h : s.Ok) (hw : s.vol.Wf) {path : List UInt8}
    (hno : ∀ i, s.vol.inode (s.vol.resolve path) = some i → isFileMode i = false) :
    (deleteFile s path).1 = false ∧ s.Reads (deleteFile s path).2 := by
  unfold deleteFile
  split
  · exact ⟨rfl, .refl⟩
  · cases hsplit : splitPath path with
    | none => exact ⟨rfl, .refl⟩
    | some pn =>
        obtain ⟨parent, name⟩ := pn
        obtain ⟨r, q, hr, hq, hreads, hreads', hrv, hqv⟩ := resolve_both h hw parent path
        dsimp only
        rw [hr]
        split
        · exact ⟨rfl, hreads⟩
        · rw [hq]
          split
          · exact ⟨rfl, hreads'⟩
          · have hread := readInode_eq (hreads'.ok h) q.1
            rw [hreads'.vol, hqv] at hread
            rw [hqv]
            have hreads'' := hreads'.trans (readInode_reads q.2 (s.vol.resolve path))
            generalize readInode q.2 (s.vol.resolve path) = p at hread hreads'' ⊢
            obtain ⟨_ | i, u⟩ := p
            · exact ⟨rfl, hreads''⟩
            · have hf := hno i hread.symm
              simp only [hf, Bool.not_false, if_true]
              exact ⟨trivial, hreads''⟩

end FiFi.Ext2
