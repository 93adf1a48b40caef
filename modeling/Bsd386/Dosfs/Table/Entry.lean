import Bsd386.Dosfs.Table.Basic

/-!
# Reading and writing an entry

In a table with room for its entries `FAT_GET` decodes the two bytes of the entry, and `FAT_SET`
changes these two bytes in every copy of the table and nothing else.
-/

namespace Bsd386.Dosfs.Table

variable {pmp : Pcfsmount} {disk : Disk} {bp : List Byte} {cn p q bn bo size value newcontents : ℕ}

/-! ## Buffers -/

@[simp]
theorem length_bread : (bread disk bn size).length = size := by
  simp [bread]

theorem getElem?_bread (hq : q < size) :
    (bread disk bn size)[q]? = some (disk (bn * devBsize + q)) := by
  simp [bread, List.getElem?_range hq]

theorem getushort_bread (hbo : bo + 1 < size) :
    getushort (bread disk bn size) bo =
      .ok ((disk (bn * devBsize + bo)).toNat + 256 * (disk (bn * devBsize + (bo + 1))).toNat) := by
  rw [getushort, length_bread, if_pos hbo, List.getD_eq_getElem?_getD, List.getD_eq_getElem?_getD,
    getElem?_bread (by omega), getElem?_bread hbo]
  rfl

/-- A buffer with new bytes for a number of 16 bits. -/
def put (bp : List Byte) (bo value : ℕ) : List Byte :=
  (bp.set bo (BitVec.ofNat 8 value)).set (bo + 1) (BitVec.ofNat 8 (value / 256))

theorem putushort_eq (hbo : bo + 1 < bp.length) : putushort bp bo value = .ok (put bp bo value) :=
  if_pos hbo

@[simp]
theorem length_put : (put bp bo value).length = bp.length := by
  simp [put]

theorem getElem?_put_bread (hbo : bo + 1 < size) (hq : q < size) :
    (put (bread disk bn size) bo value)[q]? =
      some (if q = bo then BitVec.ofNat 8 value
        else if q = bo + 1 then BitVec.ofNat 8 (value / 256)
        else disk (bn * devBsize + q)) := by
  rw [put, List.getElem?_set, List.getElem?_set, List.length_set, length_bread, getElem?_bread hq]
  by_cases hlow : q = bo
  · rw [if_neg (by omega), if_pos hlow.symm, if_pos (by omega), if_pos hlow]
  · by_cases hhigh : q = bo + 1
    · rw [if_pos hhigh.symm, if_pos hbo, if_neg hlow, if_pos hhigh]
    · rw [if_neg (Ne.symm hhigh), if_neg (Ne.symm hlow), if_neg hlow, if_neg hhigh]

/-! ## Copies of the table -/

/-- A byte behind the first block of a copy. -/
def copyAt (pmp : Pcfsmount) (i a : ℕ) : ℕ :=
  pmp.fatblk * devBsize + i * (pmp.fatsecs * devBsize) + a

/-- All copies of the table are equal. -/
def CopiesEqual (pmp : Pcfsmount) (disk : Disk) : Prop :=
  ∀ i < pmp.fats, ∀ a < pmp.fatsecs * devBsize,
    disk (copyAt pmp i a) = disk (copyAt pmp 0 a)

/-- A byte of a copy after a buffer has been written at an offset. -/
def patch (offset : ℕ) (bp : List Byte) (old : Byte) (a : ℕ) : Byte :=
  if offset ≤ a then (bp[a - offset]?).getD old else old

section Copies

variable {offset i j a copies : ℕ}

/-- A buffer that is written into one copy. -/
theorem bwrite_copy (hbn : bn * devBsize = copyAt pmp j offset)
    (hin : offset + bp.length ≤ pmp.fatsecs * devBsize) (ha : a < pmp.fatsecs * devBsize) :
    bwrite disk bn bp (copyAt pmp i a) =
      if i = j then patch offset bp (disk (copyAt pmp i a)) a else disk (copyAt pmp i a) := by
  rw [bwrite, hbn]
  unfold copyAt
  obtain ⟨L, hL⟩ : ∃ L, L = pmp.fatsecs * devBsize := ⟨_, rfl⟩
  rw [← hL] at hin ha ⊢
  rcases Nat.lt_trichotomy i j with hij | hij | hij
  · have hle : (i + 1) * L ≤ j * L := Nat.mul_le_mul_right _ hij
    rw [Nat.succ_mul] at hle
    rw [if_neg (by omega), if_neg (by omega)]
  · subst hij
    rw [if_pos rfl, patch]
    by_cases hoffset : offset ≤ a
    · rw [if_pos (by omega), if_pos hoffset, Nat.add_sub_add_left]
    · rw [if_neg (by omega), if_neg hoffset]
  · have hle : (j + 1) * L ≤ i * L := Nat.mul_le_mul_right _ hij
    rw [Nat.succ_mul] at hle
    rw [if_pos (by omega), if_neg (by omega), List.getElem?_eq_none (by omega)]
    rfl

/-- The loop over the other copies. -/
theorem updateotherfats_copy (hbn : bn * devBsize = copyAt pmp j offset)
    (hin : offset + bp.length ≤ pmp.fatsecs * devBsize) (ha : a < pmp.fatsecs * devBsize)
    (hlt : bn + copies * pmp.fatsecs < 4294967296) :
    updateotherfats pmp bp copies bn disk (copyAt pmp i a) =
      if j < i ∧ i ≤ j + copies then patch offset bp (disk (copyAt pmp i a)) a
      else disk (copyAt pmp i a) := by
  induction copies generalizing bn j disk with
  | zero => rw [updateotherfats, if_neg (by omega)]
  | succ copies ih =>
    have hu32 : u32 (bn + pmp.fatsecs) = bn + pmp.fatsecs := by
      rw [Nat.succ_mul] at hlt
      exact Nat.mod_eq_of_lt (by omega)
    have hnext : (bn + pmp.fatsecs) * devBsize = copyAt pmp (j + 1) offset := by
      rw [Nat.add_mul, hbn, copyAt, copyAt]
      ring
    have hltnext : bn + pmp.fatsecs + copies * pmp.fatsecs < 4294967296 := by
      rw [Nat.succ_mul] at hlt
      omega
    rw [updateotherfats, hu32, ih hnext hltnext, bwrite_copy hnext hin ha]
    by_cases hij : i = j + 1
    · rw [if_neg (by omega), if_pos hij, if_pos (by omega)]
    · rw [if_neg hij]
      by_cases hlater : j + 1 < i ∧ i ≤ j + 1 + copies
      · rw [if_pos hlater, if_pos (by omega)]
      · rw [if_neg hlater, if_neg (by omega)]

end Copies

/-! ## One entry -/

/-- A byte of the table. -/
def byteAt (pmp : Pcfsmount) (disk : Disk) (p : ℕ) : Byte := disk (copyAt pmp 0 (place pmp p))

/-- The two bytes from an offset on. -/
def wordAt (pmp : Pcfsmount) (disk : Disk) (p : ℕ) : ℕ :=
  (byteAt pmp disk p).toNat + 256 * (byteAt pmp disk (p + 1)).toNat

/-- The two bytes that `FAT_SET` writes. -/
def encode (pmp : Pcfsmount) (disk : Disk) (cn newcontents : ℕ) : ℕ :=
  if fat12 pmp.maxcluster then pack cn (wordAt pmp disk (entryOfs pmp cn)) newcontents
  else newcontents

/-- A place for two bytes in one block of the table. -/
structure Slot (pmp : Pcfsmount) (p : ℕ) : Prop where
  in_table : p + 1 < fatsize pmp
  in_block : p % pmp.fatblocksize + 1 < pmp.fatblocksize

theorem Layout.slot (hlayout : Layout pmp) (hentry : entryOfs pmp cn + 2 ≤ fatsize pmp) :
    Slot pmp (entryOfs pmp cn) :=
  ⟨hentry, hlayout.entry_in_block cn⟩

namespace Slot

theorem fatblock_succ (hslot : Slot pmp p) :
    (fatblock pmp (p + 1)).bn = (fatblock pmp p).bn ∧
      (fatblock pmp (p + 1)).size = (fatblock pmp p).size ∧
      (fatblock pmp (p + 1)).bo = (fatblock pmp p).bo + 1 := by
  have hsucc := Layout.div_succ hslot.in_block
  simp only [fatblock, fatbn, hsucc.1, hsucc.2, and_self]

theorem in_buffer (hslot : Slot pmp p) (hlayout : Layout pmp) :
    (fatblock pmp p).bo + 1 < (fatblock pmp p).size := by
  have hnext := (hlayout.fatblock_eq hslot.in_table).2.2
  rwa [hslot.fatblock_succ.2.1, hslot.fatblock_succ.2.2] at hnext

theorem address (hslot : Slot pmp p) (hlayout : Layout pmp) :
    (fatblock pmp p).bn * devBsize + (fatblock pmp p).bo = copyAt pmp 0 (place pmp p) := by
  rw [(hlayout.fatblock_eq (Nat.lt_of_succ_lt hslot.in_table)).1, copyAt, Nat.zero_mul,
    Nat.add_zero]

theorem address_succ (hslot : Slot pmp p) (hlayout : Layout pmp) :
    (fatblock pmp p).bn * devBsize + ((fatblock pmp p).bo + 1) =
      copyAt pmp 0 (place pmp (p + 1)) := by
  rw [Layout.place_succ hslot.in_block, ← Nat.add_assoc, hslot.address hlayout, copyAt, copyAt,
    Nat.add_assoc]

/-- The number that is read from a buffer. -/
theorem getushort_eq (hslot : Slot pmp p) (hlayout : Layout pmp) :
    getushort (bread disk (fatblock pmp p).bn (fatblock pmp p).size) (fatblock pmp p).bo =
      .ok (wordAt pmp disk p) := by
  rw [getushort_bread (hslot.in_buffer hlayout), hslot.address hlayout,
    hslot.address_succ hlayout]
  rfl

/-- What is written back into the first copy. -/
theorem patch_eq (hslot : Slot pmp p) (hlayout : Layout pmp) (a : ℕ) :
    patch (p / pmp.fatblocksize * (pmp.fatblocksec * devBsize))
        (put (bread disk (fatblock pmp p).bn (fatblock pmp p).size) (fatblock pmp p).bo value)
        (disk (copyAt pmp 0 a)) a =
      if a = place pmp p then BitVec.ofNat 8 value
      else if a = place pmp (p + 1) then BitVec.ofNat 8 (value / 256)
      else disk (copyAt pmp 0 a) := by
  have hin := hslot.in_buffer hlayout
  have haddress := hslot.address hlayout
  have hplace : place pmp p =
      p / pmp.fatblocksize * (pmp.fatblocksec * devBsize) + (fatblock pmp p).bo := rfl
  rw [Layout.place_succ hslot.in_block]
  obtain ⟨offset, hoffset⟩ : ∃ offset,
    offset = p / pmp.fatblocksize * (pmp.fatblocksec * devBsize) := ⟨_, rfl⟩
  rw [← hoffset] at hplace ⊢
  unfold copyAt at haddress ⊢
  by_cases hbelow : offset ≤ a
  · by_cases habove : a - offset < (fatblock pmp p).size
    · rw [patch, if_pos hbelow, getElem?_put_bread hin habove, Option.getD_some]
      have hsame : (fatblock pmp p).bn * devBsize + (a - offset) =
          pmp.fatblk * devBsize + 0 * (pmp.fatsecs * devBsize) + a := by omega
      have hlow : a - offset = (fatblock pmp p).bo ↔ a = place pmp p := by omega
      have hhigh : a - offset = (fatblock pmp p).bo + 1 ↔ a = place pmp p + 1 := by omega
      rw [hsame, if_congr hlow rfl rfl, if_congr hhigh rfl rfl]
    · rw [patch, if_pos hbelow, List.getElem?_eq_none (by simpa using Nat.le_of_not_lt habove),
        Option.getD_none, if_neg (by omega), if_neg (by omega)]
  · rw [patch, if_neg hbelow, if_neg (by omega), if_neg (by omega)]

end Slot

/-! ## `fatentry` -/

theorem has_iff_not_error : ¬(cn < clustFirst ∨ pmp.maxcluster < cn) ↔
    clustFirst ≤ cn ∧ cn ≤ pmp.maxcluster := by
  omega

/-- `FAT_GET` decodes the two bytes of the entry. -/
theorem fatentry_get (hlayout : Layout pmp) (hfirst : clustFirst ≤ cn)
    (hlast : cn ≤ pmp.maxcluster) (hentry : entryOfs pmp cn + 2 ≤ fatsize pmp) :
    fatentry true false pmp cn newcontents disk =
      .ok (some (decode pmp cn (wordAt pmp disk (entryOfs pmp cn))), disk) := by
  rw [fatentry, if_neg (has_iff_not_error.mpr ⟨hfirst, hlast⟩), hlayout.fatofs_eq hentry]
  simp only [getEntry, (hlayout.slot hentry).getushort_eq hlayout]
  rfl

theorem setEntry_eq (hlayout : Layout pmp) (hentry : entryOfs pmp cn + 2 ≤ fatsize pmp) :
    setEntry pmp cn newcontents
        (bread disk (fatblock pmp (entryOfs pmp cn)).bn (fatblock pmp (entryOfs pmp cn)).size)
        (fatblock pmp (entryOfs pmp cn)).bo =
      .ok (put
        (bread disk (fatblock pmp (entryOfs pmp cn)).bn (fatblock pmp (entryOfs pmp cn)).size)
        (fatblock pmp (entryOfs pmp cn)).bo (encode pmp disk cn newcontents)) := by
  have hslot := hlayout.slot hentry
  have hin := hslot.in_buffer hlayout
  rw [setEntry, encode, hslot.getushort_eq hlayout]
  split_ifs
  · exact putushort_eq (by simpa using hin)
  · exact putushort_eq (by simpa using hin)

/-- What `FAT_SET` leaves on the volume. -/
structure Written (pmp : Pcfsmount) (p value : ℕ) (disk disk' : Disk) : Prop where
  byteAt_eq : ∀ q < fatsize pmp, byteAt pmp disk' q =
    if q = p then BitVec.ofNat 8 value
    else if q = p + 1 then BitVec.ofNat 8 (value / 256) else byteAt pmp disk q
  copies : CopiesEqual pmp disk → CopiesEqual pmp disk'

/-- The buffer with the new entry is written into all copies, into the first one last. -/
theorem written (hlayout : Layout pmp) (hslot : Slot pmp p) :
    Written pmp p value disk
      (bwrite
        (updateotherfats pmp
          (put (bread disk (fatblock pmp p).bn (fatblock pmp p).size) (fatblock pmp p).bo value)
          (pmp.fats - 1) (fatblock pmp p).bn disk)
        (fatblock pmp p).bn
        (put (bread disk (fatblock pmp p).bn (fatblock pmp p).size) (fatblock pmp p).bo
          value)) := by
  obtain ⟨bp, hbp⟩ : ∃ bp, bp =
    put (bread disk (fatblock pmp p).bn (fatblock pmp p).size) (fatblock pmp p).bo value := ⟨_, rfl⟩
  have hblock := hlayout.fatblock_eq (Nat.lt_of_succ_lt hslot.in_table)
  have hlength : bp.length = (fatblock pmp p).size := by rw [hbp]; simp
  have hin := hlength ▸ hblock.2.1
  have hbn : (fatblock pmp p).bn * devBsize =
      copyAt pmp 0 (p / pmp.fatblocksize * (pmp.fatblocksec * devBsize)) := by
    have haddress := hblock.1
    have hbo : (fatblock pmp p).bo = p % pmp.fatblocksize := rfl
    unfold place at haddress
    unfold copyAt
    omega
  have hlt : (fatblock pmp p).bn + (pmp.fats - 1) * pmp.fatsecs < 4294967296 := by
    have hfats := hlayout.fats_lt
    have hsecs := hlayout.fatsecs_lt
    have hblk := hlayout.fatblk_lt
    have hmul : (pmp.fats - 1) * pmp.fatsecs ≤ 256 * 65536 := Nat.mul_le_mul (by omega) (by omega)
    unfold copyAt devBsize at hbn
    unfold devBsize at hin
    omega
  have hat : ∀ i a, a < pmp.fatsecs * devBsize →
      bwrite (updateotherfats pmp bp (pmp.fats - 1) (fatblock pmp p).bn disk) (fatblock pmp p).bn bp
          (copyAt pmp i a) =
        if i = 0 ∨ i < pmp.fats then
          patch (p / pmp.fatblocksize * (pmp.fatblocksec * devBsize)) bp (disk (copyAt pmp i a)) a
        else disk (copyAt pmp i a) := by
    intro i a ha
    rw [bwrite_copy hbn hin ha, updateotherfats_copy hbn hin ha hlt]
    by_cases hi : i = 0
    · rw [if_pos hi, if_neg (by omega), if_pos (Or.inl hi)]
    · rw [if_neg hi]
      by_cases hcopy : i < pmp.fats
      · rw [if_pos (by omega), if_pos (Or.inr hcopy)]
      · rw [if_neg (by omega), if_neg (by omega)]
  rw [← hbp]
  refine ⟨fun q hq ↦ ?_, fun hcopies i hi a ha ↦ ?_⟩
  · have hplace : place pmp q < pmp.fatsecs * devBsize := by
      have hq' := hlayout.fatblock_eq hq
      have hbo : (fatblock pmp q).bo = q % pmp.fatblocksize := rfl
      unfold place
      omega
    rw [byteAt, hat 0 _ hplace, if_pos (Or.inl rfl), hbp, hslot.patch_eq hlayout, byteAt]
    rw [if_congr (Iff.intro hlayout.place_injective (congrArg _)) rfl rfl]
    rw [if_congr (Iff.intro hlayout.place_injective (congrArg _)) rfl rfl]
  · rw [hat i a ha, hat 0 a ha, if_pos (Or.inr hi), if_pos (Or.inl rfl), hcopies i hi a ha]

theorem fatentry_set (hlayout : Layout pmp) (newcontents : ℕ) (disk : Disk)
    (hfirst : clustFirst ≤ cn) (hlast : cn ≤ pmp.maxcluster)
    (hentry : entryOfs pmp cn + 2 ≤ fatsize pmp) :
    ∃ disk', fatentry false true pmp cn newcontents disk = .ok (none, disk') ∧
      Written pmp (entryOfs pmp cn) (encode pmp disk cn newcontents) disk disk' := by
  refine ⟨_, ?_, written hlayout (hlayout.slot hentry)⟩
  rw [fatentry, if_neg (has_iff_not_error.mpr ⟨hfirst, hlast⟩), hlayout.fatofs_eq hentry]
  rw [if_neg Bool.false_ne_true]
  change (setEntry pmp cn newcontents _ _ >>= fun bp ↦ _) = _
  rw [setEntry_eq hlayout hentry]
  rfl

end Bsd386.Dosfs.Table
