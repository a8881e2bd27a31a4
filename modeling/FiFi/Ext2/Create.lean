import FiFi.Library.KeyedTable
import FiFi.Ext2.Delete
import FiFi.Ext2.Edit

/-!
# A file is created and deleted

`ext2_write_file` takes an inode and blocks for a new file and adds an entry to
the parent, which may take a block for it. `ext2_delete_file` finds the blocks
through the inode alone, and they are the ones that were taken: for data of every
size the inode holds them and nothing else. So afterwards the space is as before
but for the block of the parent.
-/

namespace FiFi.Ext2

open ByteStore

variable {s t : Fs}

namespace Vol

variable {v y w : Vol}

/-- The file `ino` was created in the directory `d` with the blocks `bs`, and the
directory got the blocks `gs`. -/
structure Created (v w : Vol) (d ino : Nat) (dir dir' j : Bytes) (name : List UInt8)
    (bs gs : List Nat) : Prop where
  edits : v.Edits w d dir dir' gs
  newInode : v.FreeInode ino
  inode : w.inode ino = some j
  newFile : isFileMode j = true
  free : ∀ b ∈ bs, v.Free b
  nodup : bs.Nodup
  apart : ∀ b ∈ bs, b ∉ gs
  taken : w.taken = insert ino v.taken
  busy : w.busy = v.busy ∪ {b | b ∈ bs} ∪ {b | b ∈ gs}
  holds : ∀ pos b, w.Holds j pos b ↔ pos < bs.length ∧ bs.getD pos 0 = b
  entries : ∃ l l', v.entries dir = l ++ l' ∧ w.entries dir' = l ++ (name, ino) :: l'
  direct : directBlocks dir' = directBlocks dir ++ gs

/-! ### The new file -/

section New

variable {d ino : Nat} {dir dir' j : Bytes} {name : List UInt8} {bs gs : List Nat} (hw : v.Wf)
  (hr : v.Reach {2} d) (hdir : v.inode d = some dir) (hd : isDirMode dir = true)
  (hgrown : (v.takeInode ino).Grown y bs)

theorem Grown.notMem_of_busy {b : Nat} (h : v.Grown w bs) (hb : b ∈ v.busy) : b ∉ bs :=
  fun hmem => (h.free b hmem).notBusy hb

include hw hr hdir hd hgrown

/-- The parent is as before when the file is stored. -/
theorem agree_parent : Agree v (y.setInode ino j) dir where
  layout := hgrown.layout
  data pos b hb :=
    hgrown.data b (hgrown.notMem_of_busy (hw.busy d pos b hr ⟨dir, hdir, Or.inr hd, hb⟩).1)

theorem tidy_parent : (y.setInode ino j).Tidy dir := by
  have htidy := hw.tidy hr hdir hd
  refine htidy.agree (agree_parent hw hr hdir hd hgrown) fun pos b hb => ?_
  change b ∈ y.busy
  rw [hgrown.busy]
  exact Or.inl (htidy.used pos b hb).1

/-- The file and its entry are put together. -/
theorem Added.created (hfree : v.FreeInode ino)
    (h : (y.setInode ino j).Added w d dir dir' name ino gs) (hf : isFileMode j = true)
    (hlen : bs.length ≤ 13 + v.pointers)
    (hat : ∀ pos < 13 + v.pointers, y.blockAt j pos =
      if pos < bs.length then bs.getD pos 0 else 0) :
    v.Created w d ino dir dir' j name bs gs := by
  have hne : ∀ x ∈ v.taken, x ≠ ino := fun x hx => ne_of_mem_of_not_mem hx hfree.notTaken
  have hagree : Agree v (y.setInode ino j) dir := agree_parent hw hr hdir hd hgrown
  have hbs : ∀ b ∈ bs, v.Free b := fun b hb =>
    ⟨(hgrown.free b hb).notBusy, (hgrown.free b hb).notReserved, (hgrown.free b hb).small⟩
  have hgs : ∀ b ∈ gs, (y.setInode ino j).Free b := by
    intro b hb
    rcases h.gained with hnil | ⟨c, hc, hfreec⟩
    · rw [hnil] at hb
      cases hb
    · rw [hc] at hb
      rwa [List.mem_singleton.1 hb]
  have hbusy : ∀ b, b ∈ (y.setInode ino j).busy ↔ b ∈ v.busy ∨ b ∈ bs := by
    intro b
    change b ∈ y.busy ↔ _
    rw [hgrown.busy]
    exact Iff.rfl
  have hfresh : ∀ b ∈ gs, b ∉ v.busy ∧ b ∉ bs := by
    intro b hb
    have hnot := (hgs b hb).notBusy
    rwa [hbusy, not_or] at hnot
  have hlayout : (y.setInode ino j).layout = v.layout := hgrown.layout
  have hwbusy : w.busy = v.busy ∪ {b | b ∈ bs} ∪ {b | b ∈ gs} := by
    rw [h.busy]
    change y.busy ∪ _ = _
    rw [hgrown.busy]
    rfl
  have hwtaken : w.taken = insert ino v.taken := h.taken.trans hgrown.taken
  have hdirect : ∀ b ∈ directBlocks dir, b ∈ v.busy := fun b hb =>
    ((hw.tidy hr hdir hd).directBlocks_used hb).1
  refine ⟨⟨hr, hdir, hd, h.layout.trans hlayout, h.self, ?_, fun x hx hxd => ?_,
    fun b hb hbd => ?_, ?_, fun b hb => ?_, fun b hb => ?_, fun x hx => ?_, fun pos b hb => ?_,
    h.dirOk⟩, hfree, ?_, hf, hbs, hgrown.nodup, fun b hb hbg => (hfresh b hbg).2 hb, hwtaken,
    hwbusy, fun pos b => ?_, ?_, h.direct⟩
  · unfold isDirMode at hd ⊢
    rwa [h.mode]
  · rw [h.others x hxd, setInode_ne _ (hne x hx), hgrown.inode]
    rfl
  · rw [h.data b hbd fun hbg => (hfresh b hbg).1 hb]
    exact hgrown.data b (hgrown.notMem_of_busy hb)
  · rcases h.gained with hnil | ⟨c, hc, -⟩
    · simp [hnil]
    · simp [hc]
  · exact ⟨(hfresh b hb).1, hlayout ▸ (hgs b hb).notReserved, (hgs b hb).small⟩
  · rw [hwbusy]
    rcases hb with hb | hb
    · exact Or.inl (Or.inl hb)
    · exact Or.inr hb
  · rw [hwtaken]
    exact Or.inr hx
  · exact (h.holds pos b hb).imp_left (hagree.holds_iff pos b).1
  · rw [h.others ino (hne d (hw.taken d hr).1).symm, setInode_self]
  · -- the indirect block of the file is not written when the entry is added
    have hsame : w.blockAt j pos = y.blockAt j pos := by
      unfold blockAt
      split
      · rfl
      · split
        · rfl
        · rename_i h12
          have hmem : iBlock j 12 ∈ bs := by
            have h12' := hat 12 (by omega)
            rw [blockAt_direct le_rfl] at h12'
            split at h12'
            · exact mem_of_getD ‹_› h12'.symm
            · exact absurd h12' h12
          have hdata := h.data (iBlock j 12)
            (fun hc => (hbs _ hmem).notBusy (hdirect _ hc)) fun hc => (hfresh _ hc).2 hmem
          rw [hdata]
          rfl
    have hpointers : w.pointers = v.pointers := by
      unfold pointers size
      rw [h.layout.trans hlayout]
    unfold Holds
    rw [hpointers, hsame]
    constructor
    · rintro ⟨hpos, hb, h0⟩
      rw [hat pos hpos] at hb
      split at hb
      · exact ⟨‹_›, hb⟩
      · exact absurd hb.symm h0
    · rintro ⟨hpos, hb⟩
      exact ⟨by omega, by rw [hat pos (by omega), if_pos hpos, hb],
        (hbs b (mem_of_getD hpos hb)).ne_zero⟩
  · obtain ⟨l, l', hold, hnew⟩ := h.entries
    exact ⟨l, l', hagree.entries_eq.symm.trans hold, hnew⟩

end New

/-- A run of numbers from zero on goes as far as all of them are good. -/
theorem mem_takeWhile_range_of_forall {n k : Nat} {p : Nat → Bool} (hk : k < n)
    (h : ∀ k' ≤ k, p k' = true) : k ∈ (List.range n).takeWhile p := by
  have hsplit : List.range (k + 1 + (n - (k + 1))) = _ := List.range_add
  rw [Nat.add_sub_of_le hk] at hsplit
  rw [hsplit, List.takeWhile_append_of_pos fun k' hk' =>
    h k' (Nat.lt_succ_iff.1 (List.mem_range.1 hk'))]
  exact List.mem_append_left _ (List.mem_range.2 (Nat.lt_succ_self k))

/-- A position is given back if all up to it hold blocks. -/
theorem mem_heldPositions (v : Vol) {i : Bytes} {pos : Nat} (hpos : pos < 13 + v.pointers)
    (hne : ∀ k ≤ pos, v.blockAt i k ≠ 0) : pos ∈ v.heldPositions i := by
  unfold heldPositions
  by_cases h12 : pos < 12
  · refine List.mem_append_left _ (mem_takeWhile_range_of_forall h12 fun k hk => ?_)
    simpa using hne k hk
  · refine List.mem_append_right _ ?_
    rcases Nat.eq_or_lt_of_le (Nat.not_lt.1 h12) with rfl | hlt
    · have hind : iBlock i 12 ≠ 0 := by
        rw [← blockAt_direct (v := v) le_rfl]
        exact hne 12 le_rfl
      simp [hind]
    · obtain ⟨k, rfl⟩ : ∃ k, pos = 13 + k := ⟨pos - 13, by omega⟩
      have hmem : k ∈ (List.range v.pointers).takeWhile fun k => v.blockAt i (13 + k) ≠ 0 :=
        mem_takeWhile_range_of_forall (by omega) fun k' hk' => by
          simpa using hne (13 + k') (by omega)
      exact List.mem_append_left _ (List.mem_map.2 ⟨k, hmem, rfl⟩)

namespace Created

variable {d ino : Nat} {dir dir' j : Bytes} {name : List UInt8} {bs gs : List Nat}
  (h : v.Created w d ino dir dir' j name bs gs) (hw : v.Wf)

include h hw

/-- Only the new file is reached in addition. -/
theorem reach {x : Nat} (hr : w.Reach {2} x) : v.Reach {2} x ∨ x = ino := by
  induction hr with
  | root hroot => exact Or.inl (.root hroot)
  | @entry x i e _ hi hd he ih =>
      rcases ih with hold | rfl
      · by_cases hx : x = d
        · subst hx
          obtain rfl := Option.some.inj (h.edits.newDir.symm.trans hi)
          obtain ⟨l, l', hent, hent'⟩ := h.entries
          have hback : e ∈ l ++ l' → v.Reach {2} e.2 := fun hmem =>
            .entry h.edits.parent h.edits.oldDir h.edits.isDir (hent ▸ hmem)
          rw [hent', List.mem_append, List.mem_cons] at he
          rcases he with he | rfl | he
          · exact Or.inl (hback (List.mem_append_left _ he))
          · exact Or.inr rfl
          · exact Or.inl (hback (List.mem_append_right _ he))
        · obtain ⟨k, hk⟩ := (hw.taken x hold).2
          obtain ⟨hwk, hagree⟩ := h.edits.kept hw hold hx k hk
          obtain rfl := Option.some.inj (hwk.symm.trans hi)
          exact Or.inl (.entry hold hk hd ((hagree (Or.inr hd)).entries_eq ▸ he))
      · obtain rfl := Option.some.inj (h.inode.symm.trans hi)
        rw [not_isDirMode_of_isFileMode h.newFile] at hd
        cases hd

theorem wf : w.Wf := by
  refine hw.extend (fun x pos b => (x = ino ∧ pos < bs.length ∧ bs.getD pos 0 = b) ∨
    (x = d ∧ pos = (directBlocks dir).length ∧ b ∈ gs)) h.edits.layout (h.edits.isDir_root hw)
    (fun x hr => ?_) (fun x pos b hr hb => ?_) (fun x pos b hn => ?_)
    (fun x x' pos pos' b hn hn' => ?_) fun x i hr hi hd => ?_
  · rcases h.reach hw hr with hold | rfl
    · exact ⟨h.edits.taken x (hw.taken x hold).1, h.edits.inode_some hw hold⟩
    · rw [h.taken]
      exact ⟨Set.mem_insert _ _, j, h.inode⟩
  · rcases h.reach hw hr with hold | rfl
    · rcases h.edits.ref hw hold hb with hold' | hnew
      · exact Or.inl ⟨hold, hold', h.edits.busy b (Or.inl (hw.busy x pos b hold hold').1)⟩
      · exact Or.inr (Or.inr hnew)
    · obtain ⟨i, hi, -, hpos⟩ := hb
      obtain rfl := Option.some.inj (h.inode.symm.trans hi)
      exact Or.inr (Or.inl ⟨rfl, (h.holds pos b).1 hpos⟩)
  · rw [h.busy]
    rcases hn with ⟨-, hpos, hb⟩ | ⟨-, -, hb⟩
    · have hmem := mem_of_getD hpos hb
      exact ⟨(h.free b hmem).notBusy, Or.inl (Or.inr hmem), (h.free b hmem).notReserved⟩
    · have hfree := h.edits.free b hb
      exact ⟨hfree.notBusy, Or.inr hb, hfree.notReserved⟩
  · rcases hn with ⟨hx, hpos, hb⟩ | ⟨hx, hpos, hb⟩
    · rcases hn' with ⟨hx', hpos', hb'⟩ | ⟨-, -, hb'⟩
      · refine ⟨hx.trans hx'.symm, ?_⟩
        rw [List.getD_eq_getElem _ _ hpos] at hb
        rw [List.getD_eq_getElem _ _ hpos'] at hb'
        exact h.nodup.getElem_inj_iff.1 (hb.trans hb'.symm)
      · exact absurd hb' (h.apart b (mem_of_getD hpos hb))
    · rcases hn' with ⟨-, hpos', hb'⟩ | ⟨hx', hpos', -⟩
      · exact absurd hb (h.apart b (mem_of_getD hpos' hb'))
      · exact ⟨hx.trans hx'.symm, hpos.trans hpos'.symm⟩
  · rcases h.reach hw hr with hold | rfl
    · exact h.edits.dirOk_of_reach hw hold hi hd
    · obtain rfl := Option.some.inj (h.inode.symm.trans hi)
      rw [not_isDirMode_of_isFileMode h.newFile] at hd
      cases hd

/-! #### Paths -/

variable (hnew : v.lookup dir name = 0)

include hnew

omit hw in
theorem lookup_eq (comp : List UInt8) :
    w.lookup dir' comp = if comp = name then ino else v.lookup dir comp := by
  obtain ⟨l, l', hent, hent'⟩ := h.entries
  have hnone := lookup_eq_none hnew
  unfold lookup
  rw [hent] at hnone ⊢
  rw [hent', AssocList.lookup_insert hnone ino comp]
  by_cases hc : comp = name
  · simp [hc]
  · simp [hc]

/-- What was found is found again. -/
theorem resolveFrom_eq {cur : Nat} (hr : v.Reach {2} cur) {comps : List (List UInt8)}
    (hne : v.resolveFrom cur comps ≠ 0) :
    w.resolveFrom cur comps = v.resolveFrom cur comps := by
  induction comps generalizing cur with
  | nil => rfl
  | cons comp comps ih =>
      obtain ⟨i, hi, hd, hl, heq⟩ := resolveFrom_cons_ne_zero hne
      rw [heq] at hne ⊢
      have hnext := ih (reach_lookup hr hi hd hl) hne
      by_cases hx : cur = d
      · subst hx
        obtain rfl := Option.some.inj (h.edits.oldDir.symm.trans hi)
        have hcomp : comp ≠ name := by
          rintro rfl
          exact hl hnew
        have hlookup := h.lookup_eq hnew comp
        rw [if_neg hcomp] at hlookup
        rw [resolveFrom_cons h.edits.newDir h.edits.isDir', hlookup, if_neg hl, hnext]
      · obtain ⟨hwi, hagree⟩ := h.edits.kept hw hr hx i hi
        rw [resolveFrom_cons hwi hd, (hagree (Or.inr hd)).lookup_eq, if_neg hl, hnext]

theorem resolve_eq {path : List UInt8} (hne : v.resolve path ≠ 0) :
    w.resolve path = v.resolve path := by
  cases path with
  | nil => rfl
  | cons c q =>
      unfold resolve at hne ⊢
      dsimp only at hne ⊢
      by_cases hc : c = slash
      · rw [if_pos hc] at hne
        rw [if_pos hc, if_pos hc]
        exact h.resolveFrom_eq hw hnew (.root rfl) hne
      · exact absurd (if_neg hc) hne

/-- The path of the file. -/
theorem resolve_path {path parent : List UInt8} (hsplit : SplitsTo path parent name)
    (hlen : name.length ≤ 255) (hp : v.resolve parent = d) (hd : d ≠ 0) :
    w.resolve parent = d ∧ w.resolve path = ino := by
  have hparent : w.resolve parent = d := by
    rw [h.resolve_eq hw hnew (by rwa [hp]), hp]
  have hdir := h.edits.newDir
  rw [← hparent] at hdir hd
  refine ⟨hparent, ?_⟩
  rw [resolve_name hsplit hlen hd hdir h.edits.isDir', h.lookup_eq hnew, if_pos rfl]

/-! #### The file is deleted -/

omit hw hnew in
/-- The blocks that are given back are the ones that were taken. -/
theorem mem_heldPositions_iff (b : Nat) :
    b ∈ (w.heldPositions j).map (w.blockAt j) ↔ b ∈ bs := by
  constructor
  · intro hb
    obtain ⟨pos, hpos, rfl⟩ := List.mem_map.1 hb
    obtain ⟨hlt, hat⟩ := (h.holds pos _).1 (holds_of_mem_heldPositions hpos)
    exact mem_of_getD hlt hat
  · intro hb
    obtain ⟨pos, hlt, rfl⟩ := List.getElem_of_mem hb
    have hall : ∀ k ≤ pos, w.Holds j k (bs.getD k 0) := fun k hk =>
      (h.holds k _).2 ⟨by omega, rfl⟩
    obtain ⟨hpos, hat, -⟩ := hall pos le_rfl
    rw [List.getD_eq_getElem _ _ hlt] at hat
    refine List.mem_map.2 ⟨pos, ?_, hat⟩
    have hne : ∀ k ≤ pos, w.blockAt j k ≠ 0 := fun k hk => (hall k hk).2.1.trans_ne (hall k hk).2.2
    exact w.mem_heldPositions hpos hne

omit hw in
/-- The blocks, the entry and the inode are taken back. -/
theorem undone {x : Vol} {held : List Nat} (hheld : ∀ b, b ∈ held ↔ b ∈ bs)
    (hrem : (w.giveAll held).Removed x dir' name) :
    v.Edits (x.giveInode ino) d dir dir' gs ∧
      (x.giveInode ino).entries dir' = v.entries dir ∧ (x.giveInode ino).taken = v.taken ∧
      (x.giveInode ino).busy = v.busy ∪ {b | b ∈ gs} := by
  obtain ⟨b, hb, page, hx⟩ := hrem.put
  have hbusy : (x.giveInode ino).busy = v.busy ∪ {c | c ∈ gs} := by
    have hset : (x.giveInode ino).busy = w.busy \ {c | c ∈ held} := by rw [hx]; rfl
    rw [hset, h.busy]
    ext c
    have hfree : c ∈ bs → c ∉ v.busy := fun hc => (h.free c hc).notBusy
    have hapart := h.apart c
    simp only [Set.mem_sdiff, Set.mem_union, Set.mem_ofPred_eq, hheld]
    tauto
  have htaken : (x.giveInode ino).taken = v.taken := by
    have hset : (x.giveInode ino).taken = w.taken \ {ino} := by rw [hx]; rfl
    rw [hset, h.taken]
    exact Set.insert_sdiff_self_of_notMem h.newInode.notTaken
  have hinode : (x.giveInode ino).inode = w.inode := by rw [hx]; rfl
  have hdata : ∀ c, c ≠ b → (x.giveInode ino).data c = w.data c := by
    intro c hc
    rw [hx]
    exact put_data_ne page hc
  refine ⟨⟨h.edits.parent, h.edits.oldDir, h.edits.isDir, ?_, ?_, h.edits.isDir', ?_, ?_,
    h.edits.gained, h.edits.free, ?_, ?_, ?_, ⟨hrem.dirOk.noHole, hrem.dirOk.records⟩⟩, ?_, htaken, hbusy⟩
  · rw [hx]
    exact h.edits.layout
  · rw [hinode]
    exact h.edits.newDir
  · rw [hinode]
    exact h.edits.others
  · intro c hc hcd
    have hne : c ≠ b := by
      rintro rfl
      rw [h.direct] at hb
      rcases List.mem_append.1 hb with hb | hb
      · exact hcd hb
      · exact (h.edits.free c hb).notBusy hc
    rw [hdata c hne]
    exact h.edits.data c hc hcd
  · intro c hc
    rw [hbusy]
    exact hc
  · intro y hy
    rw [htaken]
    exact hy
  · exact fun pos c hc => h.edits.holds pos c (hrem.holds pos c hc)
  · -- the name occurs once
    obtain ⟨l, l', hent, hent'⟩ := h.entries
    obtain ⟨m, m', k, hold, hnow⟩ := hrem.entries
    have hsame : l ++ (name, ino) :: l' = m ++ (name, k) :: m' := hent'.symm.trans hold
    have hnone := lookup_eq_none hnew
    rw [hent, AssocList.lookup_eq_none_iff_notMem, List.map_append, List.mem_append,
      not_or] at hnone
    have hnot : ∀ es : List Entry, name ∉ es.map Prod.fst → (name, k) ∉ es := fun es hes hmem =>
      hes (List.mem_map.2 ⟨_, hmem, rfl⟩)
    obtain ⟨rfl, -, rfl⟩ := (List.append_cons_inj_of_notMem (hnot l hnone.1)
      (hnot l' hnone.2)).1 hsame
    exact hnow.trans hent.symm

end Created

end Vol

/-! ### The calls -/

/-- The data is stored in a new inode, and the entry is added. -/
theorem storeFile_new {ino parentIno : Nat} {i : Bytes} {name data : List UInt8} {now : Nat}
    (hrun : storeFile s ino i true parentIno name data now = (true, t)) :
    ∃ i₁ rest s₁ i' s₂, writeDirect s i data direct = (some (i₁, rest), s₁) ∧
      writeIndirect s₁ i₁ rest = (some i', s₂) ∧
      addDirent (writeInode s₂ ino (stampFile (setSize i' data.length) now true)).2 parentIno
        name ino 1 = (true, t) := by
  unfold storeFile at hrun
  generalize writeDirect s i data direct = r at hrun ⊢
  obtain ⟨_ | ⟨i₁, rest⟩, s₁⟩ := r
  · cases hrun
  · dsimp only at hrun
    generalize hind : writeIndirect s₁ i₁ rest = q at hrun
    obtain ⟨_ | i', s₂⟩ := q
    · cases hrun
    · refine ⟨i₁, rest, s₁, i', s₂, rfl, hind, ?_⟩
      dsimp only at hrun
      split at hrun
      · cases hrun
      · exact hrun

theorem newFileInode_iBlock {k : Nat} (h : k ≤ 12) : iBlock newFileInode k = 0 := by
  have hall : ∀ k : Fin 13, iBlock newFileInode k = 0 := by decide
  exact hall ⟨k, by omega⟩

section Calls

variable (h : s.Ok) (hsuper : s.vol.layout.ApartFromSuper) (hw : s.vol.Wf) {d : Nat}
  {dir : Bytes} (hr : s.vol.Reach {2} d) (hdir : s.vol.inode d = some dir)
  (hd : isDirMode dir = true)

include h hsuper hw hr hdir hd

/-- A new file with all that it holds. -/
theorem createIn_created {name data : List UInt8} {now : Nat} (hname : name.length ≤ 255)
    (hlen : data.length ≤ s.img.geo.maxSize)
    (hdone : (createIn s d name data now).1 = true) :
    s.Turns (createIn s d name data now).2 (createIn s d name data now).2.vol ∧
      ∃ ino dir' j bs gs,
        s.vol.Created (createIn s d name data now).2.vol d ino dir dir' j name bs gs := by
  unfold createIn at hdone ⊢
  rcases allocInode_turns h hsuper with ⟨h0, -, -⟩ | ⟨hne, -, hfree, hturn⟩
  · simp [h0] at hdone
  · have hlt := hfree.small
    generalize allocInode s = a at hdone hne hfree hturn hlt ⊢
    simp only [if_neg hne] at hdone ⊢
    have hsuper' : a.2.vol.layout.ApartFromSuper := by
      rw [hturn.vol]
      exact hsuper
    have hsize : a.2.blockSize = s.blockSize := hturn.keeps.blockSize
    generalize hrun : storeFile a.2 a.1 newFileInode true d name data now = r at hdone ⊢
    obtain ⟨done, t⟩ := r
    obtain rfl : done = true := hdone
    obtain ⟨i₁, rest, s₁, i', s₂, hdirect, hind, hadd⟩ := storeFile_new hrun
    obtain ⟨bs, hgrow, hbs, hmode, hat⟩ := writeData_spec hturn.ok hsuper'
      (by rwa [hturn.keeps.geo]) (newFileInode_iBlock le_rfl) hdirect hind
    rw [hsize] at hbs hat
    have hgrown := hgrow.grown
    rw [hturn.vol] at hgrown
    obtain ⟨i₀, hi₀⟩ := hfree.exists_inode
    have hi₂ : s₂.vol.inode a.1 = some i₀ := by
      rw [hgrown.inode]
      exact hi₀
    obtain ⟨-, hput⟩ := writeInode_spec hgrow.ok hi₂ (stampFile (setSize i' data.length) now true)
    have hkeep := writeInode_keeps hgrow.ok (hgrow.apart hsuper') hi₂
      (stampFile (setSize i' data.length) now true)
    generalize hj : slice (stampFile (setSize i' data.length) now true) 0 inodeBytes = j at hput
    generalize (writeInode s₂ a.1 (stampFile (setSize i' data.length) now true)).2 = x
      at hadd hput hkeep
    have htaken := hw.taken d hr
    have hxdir : x.vol.inode d = some dir := by
      rw [hput.vol, Vol.setInode_ne _ (ne_of_mem_of_not_mem htaken.1 hfree.notTaken), hgrown.inode]
      exact hdir
    have hxtidy : x.vol.Tidy dir := by
      rw [hput.vol]
      exact Vol.tidy_parent hw hr hdir hd hgrown
    have hxsuper : x.vol.layout.ApartFromSuper := by
      rw [hput.vol]
      exact hgrow.apart hsuper'
    obtain ⟨hturn', dir', gs, hadded⟩ := addDirent_added hput.ok hxdir hxtidy hxsuper hname hne hlt
      (congrArg Prod.fst hadd)
    rw [hadd, hput.vol] at hadded
    rw [hadd] at hturn'
    have hat' : ∀ pos < 13 + s.vol.pointers, s₂.vol.blockAt j pos =
        if pos < bs.length then bs.getD pos 0 else 0 := by
      intro pos hpos
      have hsame : s₂.vol.blockAt j pos = s₂.vol.blockAt i' pos := by
        rw [← hj]
        exact s₂.vol.blockAt_congr (fun k hk => by rw [iBlock_slice _ hk, iBlock_stampFile]) pos
      rw [hsame, hat pos hpos]
      by_cases hin : pos < bs.length
      · rw [if_pos hin, if_pos hin]
      · rw [if_neg hin, if_neg hin]
        by_cases h12 : pos < 12
        · rw [if_pos h12, newFileInode_iBlock (by omega)]
        · rw [if_neg h12]
    have hfile : isFileMode j = true := by
      unfold isFileMode
      rw [← hj, iMode_stampFile, hmode]
      decide
    have hcount : bs.length ≤ 13 + s.vol.pointers := by
      have hmax := chunks_maxSize_le h.size_pos hlen
      change bs.length ≤ 13 + s.blockSize / 4
      change chunks s.blockSize data.length ≤ 12 + s.blockSize / 4 at hmax
      rw [hbs]
      unfold blocksNeeded
      split <;> omega
    exact ⟨⟨hturn'.ok, rfl, ((hturn.keeps.trans hgrow.keeps).trans hkeep).trans hturn'.keeps⟩,
      a.1, dir', j, bs, gs, hadded.created hw hr hdir hd hgrown hfree hfile hcount hat'⟩

end Calls

end FiFi.Ext2
