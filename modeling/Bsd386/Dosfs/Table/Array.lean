import Bsd386.Dosfs.Table.Codes

/-!
# The table as an array

`fatentry` treats the table as an array of numbers when all entries lie in the table and the number
fits its entry.
-/

namespace Bsd386.Dosfs.Table

variable {pmp : Pcfsmount} {b : Bpb} {disk : Disk} {c cn newcontents : ℕ}

/-- The values that are stored: a free entry, the end of a file, or a cluster. -/
def Stored (pmp : Pcfsmount) (newcontents : ℕ) : Prop :=
  newcontents = pcfsfree ∨ newcontents = clustEofe ∨
    clustFirst ≤ newcontents ∧ newcontents ≤ pmp.maxcluster

/-- On a volume a value is stored into the entry of a cluster as into an array. -/
structure ArrayUpdate (pmp : Pcfsmount) (cn newcontents : ℕ) (disk : Disk) : Prop where
  in_buffer : ∀ c, clustFirst ≤ c → c ≤ pmp.maxcluster →
    (fatblock pmp (fatofs pmp c)).bo + 1 < (fatblock pmp (fatofs pmp c)).size
  updated : ∃ disk', fatentry false true pmp cn newcontents disk = .ok (none, disk') ∧
    Gets pmp disk' cn newcontents ∧
    (∀ c, clustFirst ≤ c → c ≤ pmp.maxcluster → c ≠ cn →
      ∃ x, Gets pmp disk c x ∧ Gets pmp disk' c x) ∧
    (CopiesEqual pmp disk → CopiesEqual pmp disk')
  walked : ∀ n i cn r, follow pmp disk n i cn = .ok r → pcbmapLoop pmp disk n i cn none = .ok r
  filled : ∀ inusemap, ∃ s, fillinusemap pmp disk inusemap = .ok s ∧
    ∀ c, clustFirst ≤ c → c ≤ pmp.maxcluster →
      (Bitmap.get s.inusemap c = false ↔ Gets pmp disk c pcfsfree)

/-- A table with room and a value that fits. -/
theorem arrayUpdate_of_storable (hlayout : Layout pmp) (hfits : Fits pmp) (hfirst : clustFirst ≤ cn)
    (hlast : cn ≤ pmp.maxcluster) (hstorable : Storable pmp cn newcontents) (disk : Disk) :
    ArrayUpdate pmp cn newcontents disk := by
  refine ⟨fun c _ hc ↦ ?_, ?_, fun n i cn r hfollow ↦ ?_, fun inusemap ↦ ?_⟩
  · rw [hlayout.fatofs_eq (hfits.entry hc)]
    exact (hlayout.slot (hfits.entry hc)).in_buffer hlayout
  · obtain ⟨disk', hset, hwritten⟩ :=
      fatentry_set hlayout newcontents disk hfirst hlast (hfits.entry hlast)
    have hentries : ∀ c ≤ pmp.maxcluster, entryAt pmp disk' c =
        if c = cn then newcontents else entryAt pmp disk c := fun c hc ↦
      entryAt_written hwritten hfits hlast hc hstorable
    refine ⟨disk', hset, ?_, fun c hc hc' hne ↦ ⟨entryAt pmp disk c, ?_, ?_⟩, hwritten.copies⟩
    · rw [gets_iff hlayout hfits hfirst hlast, hentries cn hlast, if_pos rfl]
    · exact (gets_iff hlayout hfits hc hc').mpr rfl
    · rw [gets_iff hlayout hfits hc hc', hentries c hc', if_neg hne]
  · exact pcbmapLoop_eq hlayout hfits (fun x hx ↦ absurd hx (by simp)) hfollow
  · obtain ⟨s, hfill, hbits⟩ := fillinusemap_eq hlayout hfits (Nat.le_trans hfirst hlast) inusemap
    refine ⟨s, hfill, fun c hc hc' ↦ ?_⟩
    rw [hbits c hc hc', gets_iff hlayout hfits hc hc']
    rfl

/-- The table of bytes does what the table of numbers does, which the accounts of free clusters are
about. -/
theorem fatentry_refines {V : Volume} {s : Fat} (hlayout : Layout pmp) (hfits : Fits pmp)
    (hmax : V.maxcluster = pmp.maxcluster) (hcn : V.Has cn)
    (hstorable : Storable pmp cn newcontents)
    (hagree : ∀ c, V.Has c → s.entry c = entryAt pmp disk c) :
    ∃ disk' s', fatentry false true pmp cn newcontents disk = .ok (none, disk') ∧
      Dosfs.fatentry V cn newcontents s = .ok (s.entry cn, s') ∧
      (∀ c, V.Has c → s'.entry c = entryAt pmp disk' c) ∧
      (CopiesEqual pmp disk → CopiesEqual pmp disk') := by
  have hlast : cn ≤ pmp.maxcluster := hmax ▸ hcn.2
  obtain ⟨disk', hset, hwritten⟩ := fatentry_set hlayout newcontents disk
    hcn.1 hlast (hfits.entry hlast)
  refine ⟨disk', _, hset, if_pos hcn, fun c hc ↦ ?_, hwritten.copies⟩
  rw [entryAt_written hwritten hfits hlast (hmax ▸ hc.2) hstorable]
  by_cases hself : c = cn
  · rw [if_pos hself, hself]
    exact Function.update_self ..
  · rw [if_neg hself, ← hagree c hc]
    exact Function.update_of_ne hself ..

/-- Entries are set one after the other on the bytes of the disk. -/
def setBytes (pmp : Pcfsmount) (sets : List (ℕ × ℕ)) (disk : Disk) : Except Fault Disk :=
  sets.foldlM (fun disk e ↦ (fatentry false true pmp e.1 e.2 disk).map Prod.snd) disk

/-- Entries are set one after the other in the table of numbers. -/
def setNumbers (V : Volume) (sets : List (ℕ × ℕ)) (s : Fat) : Except Errno Fat :=
  sets.foldlM (fun s e ↦ (Dosfs.fatentry V e.1 e.2 s).map Prod.snd) s

theorem entryOfs_pred (pmp : Pcfsmount) (hc : 0 < c) :
    entryOfs pmp c ≤ entryOfs pmp (c - 1) + 2 := by
  unfold entryOfs
  split_ifs <;> omega

theorem Layout.first_block (hlayout : Layout pmp) (hsec : 2 ≤ pmp.bytesPerSec) :
    entryOfs pmp clustFirst < pmp.fatblocksize := by
  unfold entryOfs clustFirst
  split_ifs with htwelve
  · rw [hlayout.block_eq, hlayout.twelve htwelve]
    omega
  · rw [hlayout.sixteen (by simpa using htwelve)]
    decide

/-- An entry whose predecessor is in the table lies in its buffer only when it is in the table. -/
theorem Layout.entry_of_in_buffer (hlayout : Layout pmp) (hsec : 2 ≤ pmp.bytesPerSec)
    (hfirst : clustFirst ≤ c)
    (hprev : clustFirst < c → entryOfs pmp (c - 1) + 2 ≤ fatsize pmp)
    (hin : (fatblock pmp (fatofs pmp c)).bo + 1 < (fatblock pmp (fatofs pmp c)).size) :
    entryOfs pmp c + 2 ≤ fatsize pmp := by
  have hpos := hlayout.sec_pos
  have hsplit := Nat.div_add_mod (entryOfs pmp c) pmp.fatblocksize
  have hbytes : pmp.fatblocksize * (entryOfs pmp c / pmp.fatblocksize) =
      entryOfs pmp c / pmp.fatblocksize * pmp.fatblocksec * pmp.bytesPerSec := by
    rw [hlayout.block_eq]
    ring
  have hle : entryOfs pmp c / pmp.fatblocksize * pmp.fatblocksec ≤ pmp.fatsecs := by
    rcases Nat.lt_or_ge clustFirst c with hlater | hc
    · have hpred := entryOfs_pred pmp (Nat.zero_lt_of_lt hlater)
      have hprev := hprev hlater
      refine Nat.le_of_mul_le_mul_right ?_ hpos
      rw [← hbytes]
      unfold fatsize at hprev
      omega
    · have hc' : c = clustFirst := Nat.le_antisymm hc hfirst
      rw [hc', Nat.div_eq_of_lt (hlayout.first_block hsec), Nat.zero_mul]
      exact Nat.zero_le _
  have hsmall : entryOfs pmp c < 2147483648 := by
    have hmod := Nat.mod_lt (entryOfs pmp c) hlayout.blocksize_pos
    have hmul : entryOfs pmp c / pmp.fatblocksize * pmp.fatblocksec * pmp.bytesPerSec ≤
        65536 * devBsize := Nat.mul_le_mul (by have := hlayout.fatsecs_lt; omega) hlayout.sec_le
    have hblock : pmp.fatblocksize ≤ maxbsize * devBsize :=
      hlayout.block_eq ▸ Nat.mul_le_mul hlayout.blocksec_le hlayout.sec_le
    unfold devBsize maxbsize at hblock
    unfold devBsize at hmul
    omega
  have hofs : fatofs pmp c = entryOfs pmp c := by
    unfold fatofs
    unfold entryOfs at hsmall ⊢
    split_ifs at hsmall ⊢
    · rw [u32, Nat.mod_eq_of_lt (by omega)]
    · rw [u32, Nat.mod_eq_of_lt (by omega)]
  rw [hofs] at hin
  have hfatbn : fatbn pmp (entryOfs pmp c) =
      entryOfs pmp c / pmp.fatblocksize * pmp.fatblocksec := by
    have hsecs := hlayout.fatsecs_lt
    exact Nat.mod_eq_of_lt (by omega)
  have hsize := (hlayout.bn_size_eq (hfatbn ▸ hle)).2
  have hrest : (fatblock pmp (entryOfs pmp c)).size ≤
      (pmp.fatsecs - fatbn pmp (entryOfs pmp c)) * pmp.bytesPerSec :=
    hsize ▸ Nat.mul_le_mul_right _ (Nat.min_le_right _ _)
  have hbo : (fatblock pmp (entryOfs pmp c)).bo = entryOfs pmp c % pmp.fatblocksize := rfl
  have hmul := Nat.mul_le_mul_right pmp.bytesPerSec hle
  rw [hfatbn, Nat.sub_mul] at hrest
  unfold fatsize
  omega

/-- Where all entries are in their buffers the table has room for them. -/
theorem fits_of_in_buffer (hlayout : Layout pmp) (hsec : 2 ≤ pmp.bytesPerSec)
    (hmax : clustFirst ≤ pmp.maxcluster)
    (hin : ∀ c, clustFirst ≤ c → c ≤ pmp.maxcluster →
      (fatblock pmp (fatofs pmp c)).bo + 1 < (fatblock pmp (fatofs pmp c)).size) :
    Fits pmp := by
  have hall : ∀ k, clustFirst + k ≤ pmp.maxcluster →
      entryOfs pmp (clustFirst + k) + 2 ≤ fatsize pmp := by
    intro k
    induction k with
    | zero =>
      intro hk
      exact hlayout.entry_of_in_buffer hsec (Nat.le_refl _) (fun h ↦ absurd h (Nat.lt_irrefl _))
        (hin _ (Nat.le_refl _) hk)
    | succ k ih =>
      intro hk
      exact hlayout.entry_of_in_buffer hsec (Nat.le_add_right _ _) (fun _ ↦ ih (by omega))
        (hin _ (Nat.le_add_right _ _) hk)
  obtain ⟨k, hk⟩ := Nat.exists_eq_add_of_le hmax
  rw [Fits, hk]
  exact hall k (Nat.le_of_eq hk.symm)

theorem entryAt_zero : entryAt pmp (fun _ ↦ 0) c = 0 := by
  have hword : wordAt pmp (fun _ ↦ 0) (entryOfs pmp c) = 0 := rfl
  rw [entryAt, hword, decode]
  split_ifs
  · rw [unpack_eq]
    split_ifs <;> decide
  · rfl

/-- In a table of zeros the end of a file in an even entry reaches into the next one. -/
theorem entryAt_next_ne_zero {disk' : Disk} (htwelve : fat12 pmp.maxcluster = true)
    (heven : cn % 2 ≠ 1) (hentry : entryOfs pmp (cn + 1) + 2 ≤ fatsize pmp)
    (hwritten : Written pmp (entryOfs pmp cn) (encode pmp (fun _ ↦ 0) cn clustEofe) (fun _ ↦ 0)
      disk') :
    entryAt pmp disk' (cn + 1) ≠ 0 := by
  have hshared : entryOfs pmp (cn + 1) = entryOfs pmp cn + 1 := by
    unfold entryOfs
    rw [if_pos htwelve, if_pos htwelve]
    omega
  have hword : wordAt pmp disk' (entryOfs pmp (cn + 1)) = 255 := by
    rw [hwritten.wordAt_behind hentry hshared, encode, if_pos htwelve,
      pack_even_eofe heven wordAt_lt]
    rfl
  rw [entryAt, hword, decode_twelve htwelve, unpack_eq, if_pos (by omega)]
  decide

/-- Only a value that fits is stored as an array stores it, whatever the table holds. -/
theorem storable_of_arrayUpdate (hlayout : Layout pmp) (hfits : Fits pmp) (hfirst : clustFirst ≤ cn)
    (hlast : cn ≤ pmp.maxcluster) (hstored : Stored pmp newcontents)
    (hupdate : ArrayUpdate pmp cn newcontents fun _ ↦ 0) : Storable pmp cn newcontents := by
  obtain ⟨disk', hset, hself, hothers, -⟩ := hupdate.updated
  obtain ⟨disk'', hset', hwritten⟩ := fatentry_set hlayout newcontents (fun _ ↦ 0)
    hfirst hlast (hfits.entry hlast)
  obtain rfl : disk' = disk'' := by
    rw [hset] at hset'
    injection hset' with hset'
    exact congrArg Prod.snd hset'
  have hnew : fat12 pmp.maxcluster → newcontents < 4096 ∨ newcontents = clustEofe := by
    intro htwelve
    have hmax : pmp.maxcluster ≤ 4086 := by simpa [fat12] using htwelve
    rcases hstored with hfree | heof | hcluster
    · exact Or.inl (hfree ▸ by decide)
    · exact Or.inr heof
    · exact Or.inl (by omega)
  rw [gets_iff hlayout hfits hfirst hlast, entryAt_self hwritten (hfits.entry hlast) hnew] at hself
  unfold Storable
  by_cases htwelve : fat12 pmp.maxcluster = true
  · rw [if_pos htwelve] at hself ⊢
    rcases hnew htwelve with hsmall | heof
    · refine Or.inl ?_
      rw [Nat.mod_eq_of_lt hsmall, widen_eq hsmall] at hself
      by_contra hspecial
      rw [if_pos (by omega)] at hself
      omega
    · refine Or.inr ⟨heof, ?_⟩
      by_contra hpair
      obtain ⟨x, hx, hx'⟩ := hothers (cn + 1) (by omega) (by omega) (by omega)
      rw [gets_iff hlayout hfits (by omega) (by omega)] at hx hx'
      rw [heof] at hwritten
      refine entryAt_next_ne_zero htwelve (by omega) (hfits.entry (by omega)) hwritten ?_
      rw [hx', ← hx]
      exact entryAt_zero
  · rw [if_neg htwelve] at hself ⊢
    omega

/-! ## The main result -/

/-- The boot sector of a floppy disk of 2880 sectors. -/
def floppy : Bpb where
  bytesPerSec := 512
  secPerClust := 1
  resSectors := 1
  fats := 2
  rootDirEnts := 224
  sectors := 2880
  fatsecs := 9
  hugeSectors := 0

/-- The geometry of the floppy disk. -/
def floppyMount : Pcfsmount where
  bytesPerSec := 512
  fats := 2
  fatsecs := 9
  fatblk := 1
  maxcluster := 2848
  fatblocksize := 1536
  fatblocksec := 3

theorem mountpcfs_floppy : mountpcfs floppy = some floppyMount := by
  have hmax : floppy.maxcluster = 2848 := by decide
  have hblock : floppy.fatblocksize = 1536 := by
    rw [Bpb.fatblocksize, hmax]
    decide
  rw [mountpcfs, if_neg (by decide), hmax, hblock]
  rfl

theorem fits_floppyMount : Fits floppyMount := by
  unfold Fits
  decide

/-- On an empty floppy disk the end of a file in cluster 2 makes cluster 3 a cluster in use. -/
theorem eofe_reaches_next :
    mountpcfs floppy = some floppyMount ∧ Gets floppyMount (fun _ ↦ 0) 3 pcfsfree ∧
      ∃ disk', fatentry false true floppyMount 2 clustEofe (fun _ ↦ 0) = .ok (none, disk') ∧
        ¬Gets floppyMount disk' 3 pcfsfree := by
  have hlayout := layout_of_mountpcfs mountpcfs_floppy (Nat.le_refl _)
  have hfits := fits_floppyMount
  obtain ⟨disk', hset, hwritten⟩ := fatentry_set hlayout clustEofe (fun _ ↦ 0)
    (by decide : clustFirst ≤ 2) (by decide) (hfits.entry (by decide))
  refine ⟨mountpcfs_floppy, ?_, disk', hset, ?_⟩
  · rw [gets_iff hlayout hfits (by decide) (by decide)]
    exact entryAt_zero
  · rw [gets_iff hlayout hfits (by decide) (by decide)]
    exact entryAt_next_ne_zero (by decide) (by decide) (hfits.entry (by decide)) hwritten

/-- On a volume whose sectors are not longer than a device block `fatentry` stores a value as an
array does when all entries lie in the table and the value fits. With sectors of at least two bytes
it does so on every volume only then. -/
theorem entries_exact (hmount : mountpcfs b = some pmp) (hfirst : clustFirst ≤ cn)
    (hlast : cn ≤ pmp.maxcluster) (hstored : Stored pmp newcontents) :
    (pmp.bytesPerSec ≤ devBsize → Fits pmp → Storable pmp cn newcontents →
      ∀ disk, ArrayUpdate pmp cn newcontents disk) ∧
      (2 ≤ pmp.bytesPerSec → pmp.bytesPerSec ≤ devBsize →
        (∀ disk, ArrayUpdate pmp cn newcontents disk) →
        Fits pmp ∧ Storable pmp cn newcontents) := by
  constructor
  · intro hle hfits hstorable disk
    exact arrayUpdate_of_storable (layout_of_mountpcfs hmount hle) hfits hfirst hlast hstorable disk
  · intro hsec hle hupdate
    have hlayout := layout_of_mountpcfs hmount hle
    have hfits := fits_of_in_buffer hlayout hsec (Nat.le_trans hfirst hlast)
      (hupdate fun _ ↦ 0).in_buffer
    exact ⟨hfits, storable_of_arrayUpdate hlayout hfits hfirst hlast hstored (hupdate _)⟩

theorem entries_exact_floppy : ArrayUpdate floppyMount 3 clustEofe fun _ ↦ 0 :=
  (entries_exact mountpcfs_floppy (by decide) (by decide) (Or.inr (Or.inl rfl))).1 (by decide)
    fits_floppyMount (by unfold Storable; decide) _

/-- The table of the floppy disk as numbers. -/
def floppyVolume : Volume where
  maxcluster := floppyMount.maxcluster
  sectPerClust := 1
  bpcluster := 512
  rootdirblk := 0
  rootdirsize := 0
  firstcluster := 0
  maxcluster_lt := by decide
  sectPerClust_pos := Nat.one_pos
  bpcluster_pos := Nat.succ_pos 511

end Bsd386.Dosfs.Table
