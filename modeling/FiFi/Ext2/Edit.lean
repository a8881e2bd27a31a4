import FiFi.Ext2.Entry
import FiFi.Ext2.Unchanged

/-!
# A directory is edited

One directory changes: its entries, and perhaps it has one block more. All other
inodes that can be reached stay with what they hold, because no block is held
twice. If the entries are as before in the end, all paths resolve as before.
-/

namespace FiFi.Ext2

open ByteStore

namespace Vol

variable {v w : Vol}

/-- A volume is well formed if its blocks are referred to from the places they were
referred to before, or are new. -/
theorem WfFrom.extend (hw : v.Wf) (New : Nat → Nat → Nat → Prop) (hlayout : w.layout = v.layout)
    (hroot : w.IsDir 2)
    (htaken : ∀ x, w.Reach {2} x → x ∈ w.taken ∧ ∃ i, w.inode x = some i)
    (href : ∀ x pos b, w.Reach {2} x → w.Ref x pos b →
      (v.Reach {2} x ∧ v.Ref x pos b ∧ b ∈ w.busy) ∨ New x pos b)
    (hnew : ∀ x pos b, New x pos b → b ∉ v.busy ∧ b ∈ w.busy ∧ ¬ v.layout.Reserved b)
    (hinj : ∀ x x' pos pos' b, New x pos b → New x' pos' b → x = x' ∧ pos = pos')
    (hdirs : ∀ x i, w.Reach {2} x → w.inode x = some i → isDirMode i = true → w.DirOk i) :
    w.Wf where
  layout := hlayout ▸ hw.layout
  root := ⟨rfl, hroot⟩
  taken := htaken
  busy x pos b hr hb := by
    rw [hlayout]
    rcases href x pos b hr hb with ⟨hr', hb', hbusy⟩ | hn
    · exact ⟨hbusy, (hw.busy x pos b hr' hb').2⟩
    · exact (hnew x pos b hn).2
  unique x x' pos pos' b hr hr' hb hb' := by
    rcases href x pos b hr hb with ⟨hv, hold, -⟩ | hn
    · rcases href x' pos' b hr' hb' with ⟨hv', hold', -⟩ | hn'
      · exact hw.unique x x' pos pos' b hv hv' hold hold'
      · exact absurd (hw.busy x pos b hv hold).1 (hnew x' pos' b hn').1
    · rcases href x' pos' b hr' hb' with ⟨hv', hold', -⟩ | hn'
      · exact absurd (hw.busy x' pos' b hv' hold').1 (hnew x pos b hn).1
      · exact hinj x x' pos pos' b hn hn'
  dirs := hdirs

theorem readFile_eq_none {path : List UInt8} (h : ¬ v.IsFile (v.resolve path)) (max : Nat) :
    v.readFile path max = none := by
  unfold readFile
  split
  · rfl
  · rename_i i hi
    exact if_neg fun hf => h ⟨i, hi, hf⟩

theorem fileSize_eq_none {path : List UInt8} (h : ¬ v.IsFile (v.resolve path)) :
    v.fileSize path = none := by
  unfold fileSize
  split
  · rfl
  · rename_i i hi
    exact if_neg fun hf => h ⟨i, hi, hf⟩

/-- The directory `d` was edited and got the blocks `gs`, at most one. -/
structure Edits (v w : Vol) (d : Nat) (dir dir' : Bytes) (gs : List Nat) : Prop where
  parent : v.Reach {2} d
  oldDir : v.inode d = some dir
  isDir : isDirMode dir = true
  layout : w.layout = v.layout
  newDir : w.inode d = some dir'
  isDir' : isDirMode dir' = true
  others : ∀ x ∈ v.taken, x ≠ d → w.inode x = v.inode x
  data : ∀ b ∈ v.busy, b ∉ directBlocks dir → w.data b = v.data b
  gained : gs.length ≤ 1
  free : ∀ b ∈ gs, v.Free b
  busy : ∀ b, b ∈ v.busy ∨ b ∈ gs → b ∈ w.busy
  taken : ∀ x ∈ v.taken, x ∈ w.taken
  holds : ∀ pos b, w.Holds dir' pos b →
    v.Holds dir pos b ∨ (pos = (directBlocks dir).length ∧ b ∈ gs)
  dirOk : w.DirOk dir'

namespace Edits

variable {d : Nat} {dir dir' : Bytes} {gs : List Nat} (h : v.Edits w d dir dir' gs) (hw : v.Wf)

include h hw

/-- What another inode holds is not touched. -/
theorem kept {x : Nat} (hr : v.Reach {2} x) (hne : x ≠ d) : v.Kept w x := by
  intro i hi
  refine ⟨(h.others x (hw.taken x hr).1 hne).trans hi, fun hm => ⟨h.layout, fun pos b hb => ?_⟩⟩
  have href : v.Ref x pos b := ⟨i, hi, hm, hb⟩
  refine h.data b (hw.busy x pos b hr href).1 fun hmem => ?_
  obtain ⟨pos', -, hpos⟩ := v.holds_of_mem_directBlocks hmem
  exact hne (hw.unique x d pos pos' b hr h.parent href
    ⟨dir, h.oldDir, Or.inr h.isDir, hpos⟩).1

theorem inode_some {x : Nat} (hr : v.Reach {2} x) : ∃ i, w.inode x = some i := by
  by_cases hx : x = d
  · rw [hx]
    exact ⟨dir', h.newDir⟩
  · obtain ⟨i, hi⟩ := (hw.taken x hr).2
    exact ⟨i, (h.kept hw hr hx i hi).1⟩

theorem isDir_root : w.IsDir 2 := by
  by_cases hd : 2 = d
  · exact ⟨dir', by rw [hd]; exact h.newDir, h.isDir'⟩
  · obtain ⟨i, hi, hdir⟩ := hw.root.2
    exact ⟨i, (h.kept hw (.root rfl) hd i hi).1, hdir⟩

/-- A block is referred to as before, or it is the one the directory has got. -/
theorem ref {x pos b : Nat} (hr : v.Reach {2} x) (hb : w.Ref x pos b) :
    v.Ref x pos b ∨ (x = d ∧ pos = (directBlocks dir).length ∧ b ∈ gs) := by
  obtain ⟨i, hi, hm, hpos⟩ := hb
  by_cases hx : x = d
  · subst hx
    obtain rfl := Option.some.inj (h.newDir.symm.trans hi)
    rcases h.holds pos b hpos with hold | hnew
    · exact Or.inl ⟨dir, h.oldDir, Or.inr h.isDir, hold⟩
    · exact Or.inr ⟨rfl, hnew⟩
  · obtain ⟨j, hj⟩ := (hw.taken x hr).2
    obtain ⟨hwj, hagree⟩ := h.kept hw hr hx j hj
    obtain rfl := Option.some.inj (hwj.symm.trans hi)
    exact Or.inl ⟨j, hj, hm, ((hagree hm).holds_iff pos b).1 hpos⟩

theorem dirOk_of_reach {x : Nat} {i : Bytes} (hr : v.Reach {2} x) (hi : w.inode x = some i)
    (hd : isDirMode i = true) : w.DirOk i := by
  by_cases hx : x = d
  · subst hx
    obtain rfl := Option.some.inj (h.newDir.symm.trans hi)
    exact h.dirOk
  · obtain ⟨j, hj⟩ := (hw.taken x hr).2
    obtain ⟨hwj, hagree⟩ := h.kept hw hr hx j hj
    obtain rfl := Option.some.inj (hwj.symm.trans hi)
    exact (hagree (Or.inr hd)).dirOk (hw.dirs x j hr hj hd)

omit hw in
theorem gained_eq {b b' : Nat} (hb : b ∈ gs) (hb' : b' ∈ gs) : b = b' := by
  have hlen := h.gained
  cases gs with
  | nil => cases hb
  | cons c cs =>
      obtain rfl : cs = [] := List.length_eq_zero_iff.1 (by simpa using hlen)
      rw [List.mem_singleton.1 hb, List.mem_singleton.1 hb']

/-! #### The entries are as before -/

theorem sameTree (hent : w.entries dir' = v.entries dir) : v.SameTree w := by
  intro x hr
  by_cases hx : x = d
  · subst hx
    rw [listing_eq_some.2 ⟨dir', h.newDir, h.isDir', hent⟩,
      listing_eq_some.2 ⟨dir, h.oldDir, h.isDir, rfl⟩]
  · exact (h.kept hw hr hx).listing_eq (hw.taken x hr).2

theorem wf (hent : w.entries dir' = v.entries dir) : w.Wf := by
  have htree := h.sameTree hw hent
  refine hw.extend (fun x pos b => x = d ∧ pos = (directBlocks dir).length ∧ b ∈ gs)
    h.layout (h.isDir_root hw) (fun x hr => ?_) (fun x pos b hr hb => ?_) (fun x pos b hn => ?_)
    (fun x x' pos pos' b hn hn' => ?_) fun x i hr => h.dirOk_of_reach hw (htree.reach_iff.1 hr)
  · have hr' := htree.reach_iff.1 hr
    exact ⟨h.taken x (hw.taken x hr').1, h.inode_some hw hr'⟩
  · have hr' := htree.reach_iff.1 hr
    rcases h.ref hw hr' hb with hold | hnew
    · exact Or.inl ⟨hr', hold, h.busy b (Or.inl (hw.busy x pos b hr' hold).1)⟩
    · exact Or.inr hnew
  · obtain ⟨-, -, hb⟩ := hn
    exact ⟨(h.free b hb).notBusy, h.busy b (Or.inr hb), (h.free b hb).notReserved⟩
  · exact ⟨hn.1.trans hn'.1.symm, hn.2.1.trans hn'.2.1.symm⟩

/-- What a path leads to stays, or it is no file. -/
theorem kept_or_noFile (hzero : v.inode 0 = none) (hzero' : w.inode 0 = none) (path : List UInt8) :
    ((∃ i, v.inode (v.resolve path) = some i) ∧ v.Kept w (v.resolve path)) ∨
      (¬ v.IsFile (v.resolve path) ∧ ¬ w.IsFile (v.resolve path)) := by
  by_cases h0 : v.resolve path = 0
  · refine Or.inr ⟨?_, ?_⟩
    · rintro ⟨i, hi, -⟩
      rw [h0, hzero] at hi
      cases hi
    · rintro ⟨i, hi, -⟩
      rw [h0, hzero'] at hi
      cases hi
  · have hr := reach_resolve h0
    by_cases hx : v.resolve path = d
    · refine Or.inr ⟨?_, ?_⟩
      · rintro ⟨i, hi, hf⟩
        rw [hx, h.oldDir] at hi
        obtain rfl := Option.some.inj hi
        exact absurd (h.isDir.symm.trans (not_isDirMode_of_isFileMode hf)) (by decide)
      · rintro ⟨i, hi, hf⟩
        rw [hx, h.newDir] at hi
        obtain rfl := Option.some.inj hi
        exact absurd (h.isDir'.symm.trans (not_isDirMode_of_isFileMode hf)) (by decide)
    · exact Or.inl ⟨(hw.taken _ hr).2, h.kept hw hr hx⟩

/-- What is read at a path, and the size of the file. -/
theorem file_eq (hent : w.entries dir' = v.entries dir) (hzero : v.inode 0 = none)
    (hzero' : w.inode 0 = none) (path : List UInt8) :
    (∀ max, w.readFile path max = v.readFile path max) ∧ w.fileSize path = v.fileSize path := by
  have hpath := (h.sameTree hw hent).resolve_eq path
  rcases h.kept_or_noFile hw hzero hzero' path with ⟨hi, hkept⟩ | ⟨hno, hno'⟩
  · exact ⟨hkept.readFile_eq hpath hi, hkept.fileSize_eq hpath hi⟩
  · rw [← hpath] at hno'
    exact ⟨fun max => (readFile_eq_none hno' max).trans (readFile_eq_none hno max).symm,
      (fileSize_eq_none hno').trans (fileSize_eq_none hno).symm⟩

end Edits

end Vol

end FiFi.Ext2
