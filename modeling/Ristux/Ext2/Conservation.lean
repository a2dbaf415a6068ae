import Mathlib.Data.Nat.Count
import Ristux.Lib.Fallible
import Ristux.Ext2.Check

-- The free blocks that `count_free_blocks` counts and the blocks of a pointer tree keep their sum
-- when a file is written.

namespace Ristux.Ext2
open Lib Proc List Res Nat Store

variable {w : World}

section Count
theorem countBits_eq
    [DecidablePred p] (hnum : ∀ bit, space.number group bit = base + bit)
    (hpast : ∀ n, space.past n = decide (limit ≤ n)) (hlimit : limit ≤ u32Max)
    (hlen : start + len ≤ 8192) (hstart : base + start ≤ u32Max)
    (hp : ∀ bit, bit < start + len → base + bit < limit →
      (p (base + bit) ↔ Bitmap.bit bitmap bit = false))
    (hfree : free + min len (limit - (base + start)) ≤ u32Max) :
    countBits space group bitmap free (List.range' start len) =
      .ok (free + count (fun k => p (base + start + k)) (min len (limit - (base + start)))) := by
  induction len generalizing start free with
  | zero => simp [countBits]
  | succ len ih =>
    rw [range'_succ, countBits, hnum, hpast, check_of hstart, ok_bind]
    by_cases hl : limit ≤ base + start
    · rw [if_pos (by simpa using hl), show limit - (base + start) = 0 by omega]
      simp
    have hmin : min (len + 1) (limit - (base + start)) =
        min len (limit - (base + (start + 1))) + 1 := by omega
    have hbit := hp start (by omega) (by omega)
    rw [if_neg (by simpa using hl), bitmapBit, check_of (by omega), ok_bind, ok_bind,
      hmin, count_succ', add_zero]
    have hshift : (fun k => p (base + start + (k + 1))) = fun k => p (base + (start + 1) + k) := by
      funext k
      congr 1
      omega
    simp only [hshift]
    by_cases hb : Bitmap.bit bitmap start = true
    · rw [if_pos hb, if_neg (by simp [hbit, hb]), add_zero]
      exact ih (by omega) (by omega) (fun bit hlt => hp bit (by omega)) (by omega)
    rw [if_neg hb, if_pos (by simpa [hbit] using hb), min_eq_left (by omega)]
    rw [ih (by omega) (by omega) (fun bit hlt => hp bit (by omega)) (by omega)]
    congr 1
    omega

/-- The groups of a mounted image are as many as its blocks need. -/
theorem mountAt_groups (h : mountAt startSector dev = .ok fs) :
    fs.groups.length = divCeil fs.blocksCount fs.blocksPerGroup ∧ 0 < fs.inodesPerGroup ∧
      (0 < fs.groups.length → fs.blockSize = 1024) := by
  obtain ⟨superblock, -, h⟩ := bind_eq_ok.1 h
  dsimp only at h
  split at h
  · cases h
  split at h
  · cases h
  split at h
  · cases h
  next hper =>
  obtain ⟨blocks, hblocks, h⟩ := bind_eq_ok.1 h
  obtain ⟨groups, hgroups, h⟩ := bind_eq_ok.1 h
  cases h
  have hlen := (Fallible.mapM_eq_ok hgroups).length_eq
  rw [length_range] at hlen
  refine ⟨hlen.symm, Nat.pos_of_ne_zero (not_or.1 hper).2, fun hpos => by_contra fun hbs => ?_⟩
  -- a group has a descriptor, and no block of another size can be read
  have hdesc : 0 < divCeil (groups.length * 32) (1024 <<< superblock.u32At 24) := by
    have : 0 < 1024 <<< superblock.u32At 24 := by simp [Nat.shiftLeft_eq]
    exact Nat.div_pos (by simp only at hpos; omega) this
  rw [hlen, ← Nat.succ_pred_eq_of_pos hdesc, range_succ_eq_map] at hblocks
  obtain _ | ⟨hfirst, -⟩ := Fallible.mapM_eq_ok hblocks
  rw [readBlockAt, if_pos (.inr hbs)] at hfirst
  cases hfirst

/-- The free blocks from the first block of a group on. -/
theorem countFrom_eq (h : Layout fs)
    (hgroups : ∀ index < fs.groups.length, index * fs.blocksPerGroup < fs.blocksCount) {s : Store}
    (hw : At fs s w) {groups : List BlockGroup} {index free : ℕ}
    (hdrop : fs.groups.drop index = groups)
    (hfree : free + (fs.blocksCount - index * fs.blocksPerGroup) ≤ u32Max) :
    countFrom fs (blockSpace fs) fs.blocksPerGroup w.dev free index groups =
    .ok (free + count (fun k => s.blockUsed (index * fs.blocksPerGroup + k) = false)
      (fs.blocksCount - index * fs.blocksPerGroup)) := by
  induction groups generalizing index free with
  | nil =>
    have hlen : fs.groups.length ≤ index := by simpa using hdrop
    have hle : fs.blocksCount ≤ index * fs.blocksPerGroup :=
      h.blocksCount.1.trans (mul_le_mul_right _ hlen)
    rw [countFrom, Nat.sub_eq_zero_of_le hle]
    simp
  | cons group groups ih =>
    have hlt : index < fs.groups.length := by
      by_contra hge
      rw [drop_of_length_le (not_lt.1 hge)] at hdrop
      cases hdrop
    rw [drop_eq_getElem_cons hlt, List.cons.injEq] at hdrop
    obtain ⟨hget, hrest⟩ := hdrop
    have hmem : group ∈ fs.groups := hget ▸ getElem_mem hlt
    have hbase := hgroups index hlt
    obtain ⟨hper, hper'⟩ := h.blocksPerGroup
    have hmax := h.blocksCount.2
    have hread : readBlockSized fs ((blockSpace fs).bitmapOf group) 1024 w.dev =
        .ok (diskOf fs w.dev group.blockBitmap) :=
      readBlockSized_of_onDevice h.blockSize le_rfl (hw.group_onDevice h hmem mem_cons_self)
    rw [countFrom, hread, ok_bind, range_eq_range',
      countBits_eq (p := fun b => s.blockUsed b = false) (fun bit => rfl) (fun n => rfl) hmax
        (by omega) (by omega) ?_ (by omega), ok_bind]
    · obtain ⟨m, hm⟩ : ∃ m, m = fs.blocksCount - index * fs.blocksPerGroup := ⟨_, rfl⟩
      have hnext : (index + 1) * fs.blocksPerGroup = index * fs.blocksPerGroup + fs.blocksPerGroup :=
        succ_mul _ _
      have hcount := count_le (p := fun k =>
        s.blockUsed (index * fs.blocksPerGroup + 0 + k) = false) (n := min fs.blocksPerGroup m)
      rw [add_zero] at hcount ⊢
      rw [← hm] at hfree ⊢
      rw [ih hrest (by omega)]
      rw [add_assoc]
      congr 2
      by_cases hlast : m ≤ fs.blocksPerGroup
      · rw [min_eq_right hlast, show fs.blocksCount - (index + 1) * fs.blocksPerGroup = 0 by omega]
        simp
      rw [min_eq_left (by omega), show m = fs.blocksPerGroup +
        (fs.blocksCount - (index + 1) * fs.blocksPerGroup) by omega, count_add, hnext]
      simp only [add_assoc]
    · intro bit hbit hlt'
      rw [zero_add] at hbit
      have hdiv : (index * fs.blocksPerGroup + bit) / fs.blocksPerGroup = index := by
        rw [mul_comm, mul_add_div hper, div_eq_of_lt hbit, add_zero]
      have hmod : (index * fs.blocksPerGroup + bit) % fs.blocksPerGroup = bit := by
        rw [mul_comm, mul_add_mod, mod_eq_of_lt hbit]
      rw [hw.blockUsed_eq hlt', blockUsed, bitmapOfBlock, hdiv, hmod, groupAt,
        getD_eq_getElem _ _ hlt, hget]

theorem countFreeBlocks_eq (h : Layout fs)
    (hgroups : fs.groups.length = divCeil fs.blocksCount fs.blocksPerGroup)
    (hw : At fs s w) : countFreeBlocks fs w.dev = .ok (freeSet fs s).card := by
  have hindex : ∀ index < fs.groups.length, index * fs.blocksPerGroup < fs.blocksCount := by
    intro index hlt
    have hper := h.blocksPerGroup.1
    rw [hgroups, divCeil, lt_iff_add_one_le, le_div_iff_mul_le hper, succ_mul] at hlt
    omega
  rw [countFreeBlocks, @countFrom_eq w fs h hindex s hw fs.groups 0 0 drop_zero
    (by simpa using h.blocksCount.2)]
  simp only [zero_mul, zero_add, count_eq_card_filter_range]
  rfl

end Count

theorem card_freeSet_took (h : Took fs s N s') :
    (freeSet fs s').card + N.length = (freeSet fs s).card := by
  rw [← card_freeSet_markAll h.nodup fun b hb => ⟨(h.free b hb).1.1, by rw [h.used]; simp [hb]⟩]
  congr 1
  ext b
  rw [mem_freeSet, mem_freeSet]
  change b < fs.blocksCount ∧ (if b ∈ N then false else s'.blockUsed b) = false ↔ _
  by_cases hb : b ∈ N
  · simp [hb, (h.free b hb).2]
  · simp [hb, h.used]

theorem writeInodeData_conserves (hc : Consistent fs w)
    (hi : (treeOf fs (storeAt fs w)).Reach i) {inode inode' : Inode}
    (hread : readInode fs i w.dev = .ok inode)
    (h : writeInodeData fs inode data w = (.ok inode', w')) :
    ∃ m n, countFreeBlocks fs w.dev = .ok m ∧ countFreeBlocks fs w'.dev = .ok n ∧
      n + (refs (diskOf fs w'.dev) inode').length = m + (refs (diskOf fs w.dev) inode).length := by
  have hgroups := (mountAt_groups hc.mounted).1
  have hok := hc.sound.node i hi
  rw [readInode_eq hc.layout hc.at hok.valid] at hread
  cases hread
  have hdata : ∀ b ∈ refs (storeAt fs w).block ((storeAt fs w).inode i), DataBlock fs b :=
    fun b hb => (hok.refs b hb).1
  obtain ⟨s', hw', hQ⟩ := writeInodeData_does hc.layout hc.sound.metaUsed data hdata w hc.at
  rw [h] at hw' hQ
  obtain ⟨N, htook, hwrote, -, -⟩ := hQ
  have hnew : ∀ b ∈ refs s'.block inode', DataBlock fs b :=
    fun b hb => (htook.free b (hwrote.refs.mem_iff.1 hb)).1
  refine ⟨_, _, countFreeBlocks_eq hc.layout hgroups hc.at,
    countFreeBlocks_eq hc.layout hgroups hw', ?_⟩
  rw [(hw'.refs_eq hnew).1, (hc.at.refs_eq hdata).1, hwrote.refs.length_eq, card_freeSet_took htook]
  exact card_freeSet_freed hok

namespace Added
variable (h : Added s p ⟨x, asBytes c⟩ s') (hs : SoundUpTo fs bound s) (hp : (treeOf fs s).Reach p)
  (hdir : (s.inode p).isDir = true) (hname : ¬RawEntry.Dots ⟨x, asBytes c⟩)
  (hnew : (treeOf fs s).find p c = none)
include h hs hp hdir hname hnew

/-- A new name leaves the other names alone. -/
theorem find_eq (d : Str) :
    (treeOf fs s').find p d = if d = c then some x else (treeOf fs s).find p d := by
  obtain ⟨A, B, hfirst, hr⟩ := h
  have hold : (s.node p).entries = A ++ B ++ s.restEntries p := by
    rw [entries_eq (hs.node p hp) hdir, hfirst]
  have hreal : ((treeOf fs s').node p).real = A.filter (fun e => ¬e.Dots) ++
      ⟨x, asBytes c⟩ :: (B ++ s.restEntries p).filter fun e => ¬e.Dots := by
    change (s'.node p).entries.filter _ = _
    rw [hr.entries (hs.node p hp) hdir]
    simp [hname]
  have hreal' : ((treeOf fs s).node p).real = A.filter (fun e => ¬e.Dots) ++
      (B ++ s.restEntries p).filter fun e => ¬e.Dots := by
    change (s.node p).entries.filter _ = _
    rw [hold, append_assoc, filter_append]
  rw [Tree.find, hreal'] at hnew
  rw [Tree.find, Tree.find, hreal, hreal']
  by_cases hd : d = c
  · subst hd
    rw [Option.map_eq_none_iff, find?_append, Option.or_eq_none_iff] at hnew
    rw [if_pos rfl, find?_append, hnew.1]
    simp
  · have hne : ¬asBytes c = asBytes d := fun heq => hd (asBytes_injective heq).symm
    rw [if_neg hd, find?_append, find?_append, find?_cons_of_neg (by simpa using hne)]

theorem resolve_old (hi : (treeOf fs s).resolve follow depth parts = some i) :
    (treeOf fs s').resolve follow depth parts = some i := by
  obtain ⟨A, B, hfirst, hr⟩ := id h
  refine Tree.resolve_mono (t := treeOf fs s) rfl (fun j hj => ?_) (fun j hj => ?_)
    (fun j hj _ d k hk => ?_) hi
  · change (s'.inode j).isDir = (s.inode j).isDir
    rw [hr.inode]
  · by_cases hjp : j = p
    · subst hjp
      have hlink : (s.inode j).isSymlink = false := by
        simp only [Inode.isDir, Inode.isSymlink, decide_eq_true_eq, decide_eq_false_iff_not]
          at hdir ⊢
        rw [hdir]
        decide
      change (if (s'.inode j).isSymlink then some (s'.linkTarget j) else none) =
        if (s.inode j).isSymlink then some (s.linkTarget j) else none
      rw [hr.inode, if_neg (by simp [hlink]), if_neg (by simp [hlink])]
    · exact congrArg Node.link (hr.sameNode_of_reach hs hp hdir hj hjp).node
  by_cases hjp : j = p
  · subst hjp
    rw [find_eq h hs hp hdir hname hnew]
    split_ifs with hd
    · rw [hd, hnew] at hk
      cases hk
    · exact hk
  · have hnode : (treeOf fs s').node j = (treeOf fs s).node j :=
      (hr.sameNode_of_reach hs hp hdir hj hjp).node
    rw [Tree.find, hnode]
    exact hk

end Added

/-- The path names a regular file with this one name, and the free blocks and those of the
file are `total` together. -/
structure OwnFile (fs : Ext2Fs) (path : Str) (p : ℕ) (c : Str) (x total : ℕ) (s : Store) :
    Prop where
  sound : Sound fs s
  parent : (treeOf fs s).Parent path p c
  find : (treeOf fs s).find p c = some x
  file : (s.inode x).isFile = true
  links : (s.inode x).links ≤ 1
  first : ∃ e ∈ s.firstEntries p, e.name = asBytes c
  space : (freeSet fs s).card + (s.refs x).length = total

namespace OwnFile
theorem lookup (h : OwnFile fs path p c x total s) : (treeOf fs s).lookup true path = some x := by
  have hfound := h.parent.lookup.trans h.find
  rw [Tree.lookup, if_pos h.parent.abs] at hfound ⊢
  refine Tree.resolve_follow _ ?_ hfound
  change (s.node x).link = none
  rw [node_of_isFile h.file]

theorem write (hl : Layout fs) (h : OwnFile fs path p c x total s) (data : List UInt8) :
    Does (At fs) (writeFile fs path data) s
      (Either (fun _ s' => OwnFile fs path p c x total s') fun _ _ => True) := by
  refine (writeFile_does hl h.sound path data).mono_either ?_ fun _ _ _ => trivial
  rintro _ s' ⟨i, N, s₁, inode', hi, hfile, -, htook, hwrote, rfl⟩
  obtain rfl : x = i := Option.some.inj (h.lookup.symm.trans hi)
  have hx := Tree.lookup_reach h.lookup
  have hp := h.parent.reach
  obtain ⟨now, -, hrec⟩ := hwrote.record
  have hfile' : inode'.isFile = true := hrec ▸ hfile
  have hself : (s₁.setInode x inode').inode x = inode' := setInode_self _ _ _
  have htree := rewrite_sameTree h.sound hx htook hfile hfile'
  have hpx : p ≠ x := by
    rintro rfl
    have := h.parent.dir
    change (s.inode p).isDir = true at this
    rw [(kind_of_isFile hfile).1] at this
    cases this
  have hpdir : (s.inode p).isDir = true := h.parent.dir
  have hsame := rewrite_sameNode h.sound hx htook inode' hp hpx
  obtain ⟨ps, hps, hresolve⟩ := h.parent.parts
  refine ⟨hwrote.sound h.sound hx htook hfile, ⟨h.parent.abs, ⟨ps, hps, ?_⟩, ?_⟩, ?_, ?_, ?_, ?_, ?_⟩
  · exact (htree.resolve_eq true 8 ps).trans hresolve
  · rw [htree.node_eq hp]
    exact h.parent.dir
  · rw [Tree.find, htree.node_eq hp]
    exact h.find
  · rw [hself]
    exact hfile'
  · rw [hself, hrec]
    exact h.links
  · rw [hsame.firstEntries (h.sound.node p hp) hpdir]
    exact h.first
  have hrefs : (s₁.setInode x inode').refs x = refs s₁.block inode' := by
    rw [Store.refs, hself]
    rfl
  have hfree : freeSet fs (s₁.setInode x inode') = freeSet fs s₁ := rfl
  rw [hrefs, hfree, hwrote.refs.length_eq, card_freeSet_took htook,
    card_freeSet_freed (h.sound.node x hx), h.space]

theorem writes (hl : Layout fs) (h : OwnFile fs path p c x total s) (datas : List (List UInt8)) :
    Does (At fs) (forEach (writeFile fs path) datas) s
      (Either (fun _ s' => OwnFile fs path p c x total s') fun _ _ => True) := by
  induction datas generalizing s with
  | nil => exact Does.pure h
  | cons data datas ih =>
    exact (h.write hl data).bind_either (fun _ s' h' => ih h') fun _ _ _ => trivial

theorem remove (hl : Layout fs) (h : OwnFile fs path p c x total s) : Does (At fs) (unlink fs path) s
      (Either (fun _ s' => (freeSet fs s').card = total) fun _ _ => False) := by
  refine (unlink_does hl h.sound path).mono_either ?_ ?_
  · rintro _ s' ⟨q, d, i, hu, s₁, ⟨A, B, -, -, hr⟩, -, hun⟩
    obtain ⟨rfl, rfl⟩ := h.parent.unique hu.parent
    obtain rfl : x = i := Option.some.inj (h.find.symm.trans hu.find)
    have hx := Tree.lookup_reach h.lookup
    have hrefs := hr.refs_of_reach h.sound h.parent.reach h.parent.dir hx
    have hlinks : (s₁.inode x).links ≤ 1 := by
      rw [hr.inode]
      exact h.links
    obtain ⟨hmany, -⟩ | ⟨-, rfl⟩ := hun
    · omega
    have hfree : freeSet fs ((s₁.markAll (s₁.refs x) false).setInodeUsed x false) =
        freeSet fs (freed s x) := by
      ext b
      rw [mem_freeSet, mem_freeSet, freed, ← hrefs]
      change _ ∧ (if b ∈ s₁.refs x then false else s₁.blockUsed b) = false ↔ _
      rw [hr.blockUsed]
      rfl
    rw [hfree, card_freeSet_freed (h.sound.node x hx), h.space]
  · rintro _ s' ⟨-, hno⟩
    exact hno p c x ⟨h.parent, h.find, .inl h.file, h.first⟩

/-- A path under which there was nothing, not even a dangling symbolic link. -/
theorem of_creates {inode : Inode} (hs : Sound fs s) (hfile : inode.isFile = true)
    (hblank : inode.Blank)
    (hc : Creates fs s path p c x ((s.setInodeUsed x true).setInode x inode) s')
    (hnew : (treeOf fs s).lookup false path = none) :
    OwnFile fs path p c x (freeSet fs s).card s' := by
  have hp := hc.parent.reach
  have hpdir : (s.inode p).isDir = true := hc.parent.dir
  have hnone : (treeOf fs s).find p c = none := hc.parent.lookup ▸ hnew
  have hframe := hc.grown.frame hs
  have htree := hframe.sameTree
  have hs₁ := hframe.soundUpTo hs
  have hp₁ := htree.reach_iff.2 hp
  have hpx : p ≠ x := fun heq => hs.not_reach_of_unused hc.unused (heq ▸ hp)
  have hdir₁ : (((s.setInodeUsed x true).setInode x inode).inode p).isDir = true := by
    rw [setInode_of_ne _ _ hpx]
    exact hpdir
  have hnone₁ : (treeOf fs ((s.setInodeUsed x true).setInode x inode)).find p c = none := by
    rw [Tree.find, htree.node_eq hp]
    exact hnone
  have hdots := hc.parent.not_dots x
  obtain ⟨A, B, hfirst, hr⟩ := id hc.added
  have hin : s'.inode x = inode := by
    rw [hr.inode]
    exact setInode_self _ _ _
  obtain ⟨ps, hps, hresolve⟩ := hc.parent.parts
  refine ⟨hc.sound hs (newNode_file hc.ordinary hfile hblank),
    ⟨hc.parent.abs, ⟨ps, hps, hc.added.resolve_old hs₁ hp₁ hdir₁ hdots hnone₁ ?_⟩, ?_⟩, ?_, ?_, ?_, ?_,
    ?_⟩
  · exact (htree.resolve_eq true 8 ps).trans hresolve
  · change (s'.inode p).isDir = true
    rw [hr.inode]
    exact hdir₁
  · rw [hc.added.find_eq hs₁ hp₁ hdir₁ hdots hnone₁, if_pos rfl]
  · rw [hin]
    exact hfile
  · rw [hin]
    exact hblank.links.le
  · exact ⟨⟨x, asBytes c⟩, by rw [hr.firstEntries]; simp, rfl⟩
  have hrefs : s'.refs x = [] := by
    rw [Store.refs, hin]
    exact hblank.refs _
  have hfree : freeSet fs s' = freeSet fs s := by
    ext b
    rw [mem_freeSet, mem_freeSet, hr.blockUsed]
    rfl
  rw [hrefs, hfree]
  rfl

end OwnFile

/-- No block is lost by a write. Nor is one by creating, writing and removing a file under a
path that named nothing before, not even a symbolic link that leads nowhere. -/
theorem blocks_conserved {fs : Ext2Fs} (hc : Consistent fs w) :
    (∀ i inode inode' data w', (treeOf fs (storeAt fs w)).Reach i →
      readInode fs i w.dev = .ok inode → writeInodeData fs inode data w = (.ok inode', w') → ∃ m n,
      countFreeBlocks fs w.dev = .ok m ∧ countFreeBlocks fs w'.dev = .ok n ∧
      n + (refs (diskOf fs w'.dev) inode').length = m + (refs (diskOf fs w.dev) inode).length) ∧
    ∀ path uid gid mode datas w₁ w₂, (treeOf fs (storeAt fs w)).lookup false path = none →
    createFile fs path uid gid mode w = (.ok (), w₁) → forEach (writeFile fs path) datas w₁ =
    (.ok (), w₂) → ∃ m w₃, unlink fs path w₂ = (.ok (), w₃) ∧ countFreeBlocks fs w.dev = .ok m ∧
    countFreeBlocks fs w₃.dev = .ok m := by
  have hgroups := (mountAt_groups hc.mounted).1
  refine ⟨fun i inode inode' data w' hi hread h => writeInodeData_conserves hc hi hread h, ?_⟩
  intro path uid gid mode datas w₁ w₂ hnew hcreate hwrites
  obtain ⟨s₁, hw₁, hQ₁⟩ := createFile_does hc.layout hc.sound path uid gid mode w hc.at
  rw [hcreate] at hw₁ hQ₁
  obtain ⟨-, p, c, x, inode, hfile, hblank, hcreates⟩ := hQ₁
  have hown := OwnFile.of_creates hc.sound hfile hblank hcreates hnew
  obtain ⟨s₂, hw₂, hQ₂⟩ := hown.writes hc.layout datas w₁ hw₁
  rw [hwrites] at hw₂ hQ₂
  have hown₂ : OwnFile fs path p c x (freeSet fs (storeAt fs w)).card s₂ := hQ₂
  obtain ⟨s₃, hw₃, hQ₃⟩ := hown₂.remove hc.layout w₂ hw₂
  have hfree := countFreeBlocks_eq hc.layout hgroups hw₃
  rcases hr : unlink fs path w₂ with ⟨r, w₃⟩
  rw [hr] at hQ₃ hfree
  match r with
  | .ok () =>
    have hcard : (freeSet fs s₃).card = (freeSet fs (storeAt fs w)).card := hQ₃
    exact ⟨_, w₃, rfl, countFreeBlocks_eq hc.layout hgroups hc.at, hcard ▸ hfree⟩
  | .error (.err _) => exact hQ₃.elim
  | .error .panic => exact hQ₃.elim

/-- An image with one name, `a`, in its root directory: a symbolic link to `z`, which does not
exist. -/
def danglingLink : World := tinyWorld [0xff, 0x02] [0xff, 0x07]
  (fun i => if i = 2 then tinyInode 0o40755 2 1024 [7]
    else if i = 11 then tinyInode 0o120777 1 1 [9] else tinyInode 0 0 0 [])
  fun b => if b = 7 then
      putRecord (putRecord (putRecord Buf.zero 0 2 12 (asBytes dot) ext2FtDir) 12 2 12
        (asBytes dotDot) ext2FtDir) 24 11 1000 (asBytes ['a']) ext2FtSymlink
    else if b = 9 then Buf.ofList [0x7a] else Buf.zero

theorem consistent_danglingLink : Consistent tinyFs danglingLink :=
  @consistent_tiny _ _ _ _ [11] (by decide +kernel)

/-- The image after `b` has been created, and then after it has been written twice. -/
def createdB : World := (createFile tinyFs ['/', 'b'] 0 0 0o644 danglingLink).2

def writtenB : World :=
  (forEach (writeFile tinyFs ['/', 'b']) [[7], [8, 9]] createdB).2

theorem blocks_conserved_b : ∃ m w, unlink tinyFs ['/', 'b'] writtenB = (.ok (), w) ∧
    countFreeBlocks tinyFs danglingLink.dev = .ok m ∧ countFreeBlocks tinyFs w.dev = .ok m := by
  have hnew : (treeOf tinyFs (storeAt tinyFs danglingLink)).lookup false ['/', 'b'] = none := by
    decide +kernel
  have hcreate : (createFile tinyFs ['/', 'b'] 0 0 0o644 danglingLink).1 = .ok () := by
    decide +kernel
  have hwrite : (forEach (writeFile tinyFs ['/', 'b']) [[7], [8, 9]] createdB).1 = .ok () := by
    decide +kernel
  exact (blocks_conserved consistent_danglingLink).2 ['/', 'b'] 0 0 0o644 [[7], [8, 9]] createdB
    writtenB hnew (eq_of_ok hcreate) (eq_of_ok hwrite)

/-- `create_file` does not see the link and adds a second entry `a`; `unlink` removes the
first one, and the block of the link is free. -/
theorem create_unlink_gains_block : Consistent tinyFs danglingLink ∧
    (createFile tinyFs ['/', 'a'] 0 0 0o644 danglingLink).1 = .ok () ∧
    (unlink tinyFs ['/', 'a'] (createFile tinyFs ['/', 'a'] 0 0 0o644 danglingLink).2).1 = .ok () ∧
    countFreeBlocks tinyFs danglingLink.dev = .ok 7 ∧
    countFreeBlocks tinyFs (unlink tinyFs ['/', 'a']
      (createFile tinyFs ['/', 'a'] 0 0 0o644 danglingLink).2).2.dev = .ok 8 := by
  refine ⟨consistent_danglingLink, ?_⟩
  decide +kernel

end Ristux.Ext2
