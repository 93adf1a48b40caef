import Bsd386.Dosfs.Fat
import Mathlib.Algebra.Order.Ring.Nat
import Mathlib.Data.Nat.Prime.Basic
import Mathlib.Tactic.Ring

/-!
# The file allocation table on the volume

`fatentry`, `pcbmap` and `fillinusemap` of `dosfs/dosfs_fat.c` with the bytes that they read and
write. The volume is a map of bytes, and block numbers count `DEV_BSIZE` bytes of it. A buffer is a
list of bytes, and an access behind its end is a fault.
-/

namespace Bsd386.Dosfs.Table

/-- A byte. -/
abbrev Byte : Type := BitVec 8

/-- The bytes of the volume. -/
abbrev Disk : Type := ℕ → Byte

/-- `DEV_BSIZE`. -/
def devBsize : ℕ := 512

/-- `MAXBSIZE`. -/
def maxbsize : ℕ := 8192

/-- A number as an `u_long` holds it. -/
def u32 (n : ℕ) : ℕ := n % 4294967296

/-- Why an access gives nothing. -/
inductive Fault
  | EINVAL
  | outside
  deriving DecidableEq

/-! ## Geometry -/

/-- The fields of the boot sector that the table depends on. -/
structure Bpb where
  bytesPerSec : BitVec 16
  secPerClust : BitVec 8
  resSectors : BitVec 16
  fats : BitVec 8
  rootDirEnts : BitVec 16
  sectors : BitVec 16
  fatsecs : BitVec 16
  hugeSectors : BitVec 32

/-- The fields of the mount structure that the table depends on. -/
structure Pcfsmount where
  bytesPerSec : ℕ
  fats : ℕ
  fatsecs : ℕ
  fatblk : ℕ
  maxcluster : ℕ
  fatblocksize : ℕ
  fatblocksec : ℕ

/-- `FAT12` of a largest cluster number. -/
def fat12 (maxcluster : ℕ) : Bool := maxcluster ≤ 4086

/-- `pm_HugeSectors`. -/
def Bpb.huge (b : Bpb) : ℕ := if b.sectors = 0 then b.hugeSectors.toNat else b.sectors.toNat

/-- `pm_firstcluster`. -/
def Bpb.firstcluster (b : Bpb) : ℕ :=
  b.resSectors.toNat + b.fats.toNat * b.fatsecs.toNat +
    b.rootDirEnts.toNat * 32 / b.bytesPerSec.toNat

/-- `pm_maxcluster`. -/
def Bpb.maxcluster (b : Bpb) : ℕ :=
  u32 (u32 (b.huge + 4294967296 - b.firstcluster) / b.secPerClust.toNat + 1)

/-- `pm_fatblocksize`. -/
def Bpb.fatblocksize (b : Bpb) : ℕ :=
  if fat12 b.maxcluster then 3 * b.bytesPerSec.toNat else maxbsize

/-- `bpc`, the bytes of a cluster. -/
def Bpb.bpc (b : Bpb) : ℕ := b.secPerClust.toNat * b.bytesPerSec.toNat

/-- The loop that looks for `pm_cnshift`: the lowest bit of the bytes of a cluster has to be the
only one. -/
def oneBit (bpc : ℕ) : Bool :=
  ((List.range 32).find? fun i ↦ bpc.testBit i).all fun i ↦ bpc = 2 ^ i

/-- The geometry that `mountpcfs` makes of a boot sector. Sectors and clusters of no bytes do not
come so far, since they are divided by. -/
def mountpcfs (b : Bpb) : Option Pcfsmount :=
  if b.bytesPerSec = 0 ∨ b.secPerClust = 0 ∨ oneBit b.bpc = false then none
  else some
    { bytesPerSec := b.bytesPerSec.toNat
      fats := b.fats.toNat
      fatsecs := b.fatsecs.toNat
      fatblk := b.resSectors.toNat
      maxcluster := b.maxcluster
      fatblocksize := b.fatblocksize
      fatblocksec := b.fatblocksize / b.bytesPerSec.toNat }

/-- `FATOFS`. -/
def fatofs (pmp : Pcfsmount) (cn : ℕ) : ℕ :=
  if fat12 pmp.maxcluster then u32 (cn * 3) / 2 else u32 (cn * 2)

/-- A block of the table and the place of an entry in it. -/
structure Block where
  bn : ℕ
  size : ℕ
  bo : ℕ

/-- The number of the block in the table, which `fatblock` has in `bn` at first. -/
def fatbn (pmp : Pcfsmount) (ofs : ℕ) : ℕ := u32 (ofs / pmp.fatblocksize * pmp.fatblocksec)

/-- `fatblock`. -/
def fatblock (pmp : Pcfsmount) (ofs : ℕ) : Block where
  bn := u32 (fatbn pmp ofs + pmp.fatblk)
  size :=
    u32 (min pmp.fatblocksec (u32 (pmp.fatsecs + 4294967296 - fatbn pmp ofs)) * pmp.bytesPerSec)
  bo := ofs % pmp.fatblocksize

/-! ## Buffers -/

/-- `bread`. -/
def bread (disk : Disk) (bn size : ℕ) : List Byte :=
  (List.range size).map fun j ↦ disk (bn * devBsize + j)

/-- `bwrite`. -/
def bwrite (disk : Disk) (bn : ℕ) (bp : List Byte) : Disk := fun a ↦
  if bn * devBsize ≤ a then (bp[a - bn * devBsize]?).getD (disk a) else disk a

/-- `getushort`. -/
def getushort (bp : List Byte) (bo : ℕ) : Except Fault ℕ :=
  if bo + 1 < bp.length then .ok ((bp.getD bo 0).toNat + 256 * (bp.getD (bo + 1) 0).toNat)
  else .error .outside

/-- `putushort`. -/
def putushort (bp : List Byte) (bo value : ℕ) : Except Fault (List Byte) :=
  if bo + 1 < bp.length then
    .ok ((bp.set bo (BitVec.ofNat 8 value)).set (bo + 1) (BitVec.ofNat 8 (value / 256)))
  else .error .outside

/-! ## Entries -/

/-- The entry of 12 bits in the two bytes that hold it. -/
def unpack (cn readcn : ℕ) : ℕ := (if cn % 2 = 1 then readcn >>> 4 else readcn) &&& 0x0fff

/-- The special numbers of 12 bits as numbers of 16 bits. -/
def widen (readcn : ℕ) : ℕ := if readcn &&& 0x0ff0 = 0x0ff0 then readcn ||| 0xf000 else readcn

/-- The two bytes with a new entry of 12 bits. -/
def pack (cn readcn newcontents : ℕ) : ℕ :=
  if cn % 2 = 1 then readcn &&& 0x000f ||| newcontents <<< 4
  else readcn &&& 0xf000 ||| newcontents <<< 0

/-- What `FAT_GET` gives for the two bytes. -/
def decode (pmp : Pcfsmount) (cn readcn : ℕ) : ℕ :=
  if fat12 pmp.maxcluster then widen (unpack cn readcn) else readcn

/-- The part of `fatentry` for `FAT_GET`. -/
def getEntry (pmp : Pcfsmount) (cn : ℕ) (bp : List Byte) (bo : ℕ) : Except Fault ℕ := do
  let readcn ← getushort bp bo
  return decode pmp cn readcn

/-- The part of `fatentry` for `FAT_SET` that changes the buffer. -/
def setEntry (pmp : Pcfsmount) (cn newcontents : ℕ) (bp : List Byte) (bo : ℕ) :
    Except Fault (List Byte) :=
  if fat12 pmp.maxcluster then do
    let readcn ← getushort bp bo
    putushort bp bo (pack cn readcn newcontents)
  else putushort bp bo newcontents

/-- The loop of `updateotherfats` over the other copies. -/
def updateotherfats (pmp : Pcfsmount) (bp : List Byte) : ℕ → ℕ → Disk → Disk
  | 0, _, disk => disk
  | copies + 1, fatbn, disk =>
    updateotherfats pmp bp copies (u32 (fatbn + pmp.fatsecs))
      (bwrite disk (u32 (fatbn + pmp.fatsecs)) bp)

/-- `fatentry`, whose function is given by its two flags. -/
def fatentry (get set : Bool) (pmp : Pcfsmount) (cn newcontents : ℕ) (disk : Disk) :
    Except Fault (Option ℕ × Disk) :=
  if cn < clustFirst ∨ pmp.maxcluster < cn then .error .EINVAL
  else do
    let b := fatblock pmp (fatofs pmp cn)
    let bp := bread disk b.bn b.size
    let oldcontents ← if get then (getEntry pmp cn bp b.bo).map some else .ok none
    if set then
      let bp ← setEntry pmp cn newcontents bp b.bo
      return (oldcontents, bwrite (updateotherfats pmp bp (pmp.fats - 1) b.bn disk) b.bn bp)
    else return (oldcontents, disk)

/-! ## The other readers -/

/-- Where the loop of `pcbmap` stops. -/
inductive Walked
  | hiteof (i : ℕ)
  | mapped (cn : ℕ)
  deriving DecidableEq

/-- The loop of `pcbmap` with the buffer that it keeps. -/
def pcbmapLoop (pmp : Pcfsmount) (disk : Disk) : ℕ → ℕ → ℕ → Option (ℕ × List Byte) →
    Except Fault Walked
  | 0, i, cn, _ => .ok (if Pcfseof cn then .hiteof i else .mapped cn)
  | n + 1, i, cn, bp =>
    if Pcfseof cn then .ok (.hiteof i)
    else
      let b := fatblock pmp (fatofs pmp cn)
      let bp' := (bp.filter fun bp ↦ bp.1 = b.bn).getD (b.bn, bread disk b.bn b.size)
      match getushort bp'.2 b.bo with
      | .error e => .error e
      | .ok readcn => pcbmapLoop pmp disk n (i + 1) (decode pmp cn readcn) (some bp')

/-- The state of `fillinusemap`. -/
structure Fill where
  bp : Option (List Byte)
  inusemap : ℕ → BitVec 8
  freeclustercount : ℕ
  lookhere : ℕ

/-- `usemap_free`. -/
def Fill.usemapFree (s : Fill) (cn : ℕ) : Fill :=
  { s with
    freeclustercount := s.freeclustercount + 1
    inusemap := Bitmap.clear s.inusemap cn
    lookhere := if cn < s.lookhere then cn else s.lookhere }

/-- The buffer that `fillinusemap` has for a cluster. -/
def Fill.buffer (pmp : Pcfsmount) (disk : Disk) (s : Fill) (cn : ℕ) : List Byte :=
  let b := fatblock pmp (fatofs pmp cn)
  if b.bo = 0 then bread disk b.bn b.size
  else s.bp.getD (bread disk b.bn b.size)

/-- A turn of the loop of `fillinusemap`. -/
def Fill.step (pmp : Pcfsmount) (disk : Disk) (s : Fill) (cn : ℕ) : Except Fault Fill := do
  let bp := s.buffer pmp disk cn
  let readcn ← getushort bp (fatblock pmp (fatofs pmp cn)).bo
  let s := { s with bp := some bp }
  return if (if fat12 pmp.maxcluster then unpack cn readcn else readcn) = 0 then s.usemapFree cn
    else s

/-- `fillinusemap`. -/
def fillinusemap (pmp : Pcfsmount) (disk : Disk) (inusemap : ℕ → BitVec 8) : Except Fault Fill :=
  (List.range' clustFirst (pmp.maxcluster + 1 - clustFirst)).foldlM (Fill.step pmp disk)
    { bp := none
      inusemap := fun i ↦ if i < pmp.maxcluster / 8 + 1 then BitVec.allOnes 8 else inusemap i
      freeclustercount := 0
      lookhere := pmp.maxcluster + 1 }

end Bsd386.Dosfs.Table

/-!
# Where the entries are

The blocks of the table lie one behind the other when no sector is longer than a device block, and
an entry lies in one of them, because their length is a multiple of three or of two bytes.
-/

namespace Bsd386.Dosfs.Table

variable {pmp : Pcfsmount} {b : Bpb} {cn p p' : ℕ}

/-- What a geometry of small sectors gives the blocks of the table. -/
structure Layout (pmp : Pcfsmount) : Prop where
  sec_pos : 0 < pmp.bytesPerSec
  sec_le : pmp.bytesPerSec ≤ devBsize
  block_eq : pmp.fatblocksize = pmp.fatblocksec * pmp.bytesPerSec
  blocksec_pos : 0 < pmp.fatblocksec
  blocksec_le : pmp.fatblocksec ≤ maxbsize
  twelve : fat12 pmp.maxcluster → pmp.fatblocksec = 3
  sixteen : fat12 pmp.maxcluster = false → pmp.fatblocksize = maxbsize
  fatblk_lt : pmp.fatblk < 65536
  fatsecs_lt : pmp.fatsecs < 65536
  fats_lt : pmp.fats < 256

theorem exists_pow_of_oneBit {bpc : ℕ} (hone : oneBit bpc) (hpos : bpc ≠ 0) (hlt : bpc < 2 ^ 32) :
    ∃ i, bpc = 2 ^ i := by
  obtain ⟨i, hi⟩ := Nat.exists_testBit_of_ne_zero hpos
  have hi32 : i < 32 := (Nat.pow_lt_pow_iff_right (by decide)).mp
    (Nat.lt_of_le_of_lt (Nat.ge_two_pow_of_testBit hi) hlt)
  cases hfind : (List.range 32).find? fun i ↦ bpc.testBit i with
  | none => exact absurd hi (List.find?_eq_none.mp hfind i (List.mem_range.mpr hi32))
  | some j =>
    rw [oneBit, hfind] at hone
    exact ⟨j, by simpa using hone⟩

/-- The sectors of an accepted volume are a power of two long. -/
theorem exists_pow_of_mountpcfs (hmount : mountpcfs b = some pmp) :
    ∃ i, pmp.bytesPerSec = 2 ^ i := by
  rw [mountpcfs] at hmount
  split_ifs at hmount with hreject
  push Not at hreject
  cases hmount
  have hsec : b.bytesPerSec.toNat ≠ 0 := fun h ↦ hreject.1 (BitVec.eq_of_toNat_eq h)
  have hclust : b.secPerClust.toNat ≠ 0 := fun h ↦ hreject.2.1 (BitVec.eq_of_toNat_eq h)
  have hlt : b.bpc < 2 ^ 32 := by
    have hle : b.bpc ≤ 256 * 65536 :=
      Nat.mul_le_mul (Nat.le_of_lt b.secPerClust.isLt) (Nat.le_of_lt b.bytesPerSec.isLt)
    omega
  have hone : oneBit b.bpc = true := by simpa using hreject.2.2
  obtain ⟨i, hi⟩ := exists_pow_of_oneBit hone (Nat.mul_ne_zero hclust hsec) hlt
  have hdvd : b.bytesPerSec.toNat ∣ 2 ^ i := hi ▸ Nat.dvd_mul_left _ _
  obtain ⟨j, -, hj⟩ := (Nat.dvd_prime_pow Nat.prime_two).mp hdvd
  exact ⟨j, hj⟩

theorem dvd_maxbsize {bytesPerSec : ℕ} (hpow : ∃ i, bytesPerSec = 2 ^ i)
    (hle : bytesPerSec ≤ devBsize) : bytesPerSec ∣ maxbsize := by
  obtain ⟨i, rfl⟩ := hpow
  have hi : i ≤ 9 := (Nat.pow_le_pow_iff_right (by decide)).mp
    (show 2 ^ i ≤ 2 ^ 9 from hle)
  exact (Nat.pow_dvd_pow 2 hi).trans (by decide)

theorem layout_of_mountpcfs (hmount : mountpcfs b = some pmp) (hle : pmp.bytesPerSec ≤ devBsize) :
    Layout pmp := by
  have hpow := exists_pow_of_mountpcfs hmount
  have hdvd := dvd_maxbsize hpow hle
  have hpos : 0 < pmp.bytesPerSec := by
    obtain ⟨i, hi⟩ := hpow
    rw [hi]
    exact Nat.pow_pos (by decide)
  rw [mountpcfs] at hmount
  split_ifs at hmount
  cases hmount
  dsimp only at hdvd hpos hle
  have hblock : b.fatblocksize / b.bytesPerSec.toNat * b.bytesPerSec.toNat = b.fatblocksize := by
    refine Nat.div_mul_cancel ?_
    rw [Bpb.fatblocksize]
    split_ifs
    · exact Nat.dvd_mul_left _ _
    · exact hdvd
  refine ⟨hpos, hle, hblock.symm, ?_, ?_, ?_, ?_, b.resSectors.isLt, b.fatsecs.isLt, b.fats.isLt⟩
  · refine Nat.div_pos ?_ hpos
    rw [Bpb.fatblocksize]
    split_ifs
    · omega
    · exact Nat.le_trans hle (by decide)
  · rw [Bpb.fatblocksize]
    split_ifs
    · rw [Nat.mul_div_cancel _ hpos]
      exact (by decide : 3 ≤ maxbsize)
    · exact Nat.div_le_self _ _
  · intro htwelve
    dsimp only at htwelve ⊢
    rw [Bpb.fatblocksize, if_pos htwelve, Nat.mul_div_cancel _ hpos]
  · intro hsixteen
    dsimp only at hsixteen ⊢
    rw [Bpb.fatblocksize, if_neg (by simp [hsixteen])]

/-! ## Offsets -/

/-- `FATOFS` without overflow. -/
def entryOfs (pmp : Pcfsmount) (cn : ℕ) : ℕ := if fat12 pmp.maxcluster then cn * 3 / 2 else cn * 2

/-- The length of the table, `pm_fatsize`. -/
def fatsize (pmp : Pcfsmount) : ℕ := pmp.fatsecs * pmp.bytesPerSec

/-- The table has room for the entries of all clusters. -/
def Fits (pmp : Pcfsmount) : Prop := entryOfs pmp pmp.maxcluster + 2 ≤ fatsize pmp

theorem entryOfs_mono (hle : p ≤ p') : entryOfs pmp p ≤ entryOfs pmp p' := by
  unfold entryOfs
  split_ifs <;> omega

theorem Fits.entry (hfits : Fits pmp) (hcn : cn ≤ pmp.maxcluster) :
    entryOfs pmp cn + 2 ≤ fatsize pmp :=
  Nat.le_trans (Nat.add_le_add_right (entryOfs_mono hcn) 2) hfits

namespace Layout

theorem fatsize_lt (hlayout : Layout pmp) : fatsize pmp < 65536 * devBsize :=
  Nat.lt_of_le_of_lt (Nat.mul_le_mul_left _ hlayout.sec_le)
    (Nat.mul_lt_mul_of_pos_right hlayout.fatsecs_lt (by decide))

theorem fatofs_eq (hlayout : Layout pmp) (hentry : entryOfs pmp cn + 2 ≤ fatsize pmp) :
    fatofs pmp cn = entryOfs pmp cn := by
  have hsize := hlayout.fatsize_lt
  unfold fatofs
  unfold entryOfs at hentry ⊢
  unfold devBsize at hsize
  split_ifs at hentry ⊢
  · rw [u32, Nat.mod_eq_of_lt (by omega)]
  · rw [u32, Nat.mod_eq_of_lt (by omega)]

theorem blocksize_pos (hlayout : Layout pmp) : 0 < pmp.fatblocksize :=
  hlayout.block_eq ▸ Nat.mul_pos hlayout.blocksec_pos hlayout.sec_pos

/-- An entry does not reach behind the block that it begins in. -/
theorem entry_in_block (hlayout : Layout pmp) (cn : ℕ) :
    entryOfs pmp cn % pmp.fatblocksize + 1 < pmp.fatblocksize := by
  have hpos := hlayout.sec_pos
  unfold entryOfs
  split_ifs with htwelve
  · have hsize : pmp.fatblocksize = 3 * pmp.bytesPerSec := by
      rw [hlayout.block_eq, hlayout.twelve htwelve]
    have hthree : cn * 3 / 2 % (3 * pmp.bytesPerSec) % 3 = cn * 3 / 2 % 3 :=
      Nat.mod_mul_right_mod _ _ _
    have hlt := Nat.mod_lt (cn * 3 / 2) (show 0 < 3 * pmp.bytesPerSec by omega)
    rw [hsize]
    omega
  · rw [hlayout.sixteen (by simpa using htwelve), maxbsize]
    omega

end Layout

/-- The place of a byte of the table behind the table's first block on the device. -/
def place (pmp : Pcfsmount) (p : ℕ) : ℕ :=
  p / pmp.fatblocksize * (pmp.fatblocksec * devBsize) + p % pmp.fatblocksize

namespace Layout

theorem mod_lt_span (hlayout : Layout pmp) (p : ℕ) :
    p % pmp.fatblocksize < pmp.fatblocksec * devBsize :=
  Nat.lt_of_lt_of_le (Nat.mod_lt p hlayout.blocksize_pos)
    (hlayout.block_eq ▸ Nat.mul_le_mul_left _ hlayout.sec_le)

theorem place_injective (hlayout : Layout pmp) (heq : place pmp p = place pmp p') : p = p' := by
  have hmod := hlayout.mod_lt_span p
  have hmod' := hlayout.mod_lt_span p'
  have hspan : 0 < pmp.fatblocksec * devBsize := Nat.lt_of_le_of_lt (Nat.zero_le _) hmod
  have hdiv : p / pmp.fatblocksize = p' / pmp.fatblocksize := by
    have hquot := congrArg (· / (pmp.fatblocksec * devBsize)) heq
    simpa [place, Nat.add_comm _ (_ % _), Nat.add_mul_div_right _ _ hspan, Nat.div_eq_of_lt hmod,
      Nat.div_eq_of_lt hmod'] using hquot
  have hrem : p % pmp.fatblocksize = p' % pmp.fatblocksize := by
    rw [place, place, hdiv] at heq
    exact Nat.add_left_cancel heq
  rw [← Nat.div_add_mod p pmp.fatblocksize, ← Nat.div_add_mod p' pmp.fatblocksize, hdiv, hrem]

theorem div_succ (hin : p % pmp.fatblocksize + 1 < pmp.fatblocksize) :
    (p + 1) / pmp.fatblocksize = p / pmp.fatblocksize ∧
      (p + 1) % pmp.fatblocksize = p % pmp.fatblocksize + 1 := by
  have hp := Nat.div_add_mod p pmp.fatblocksize
  have hsplit : p + 1 =
      (p % pmp.fatblocksize + 1) + pmp.fatblocksize * (p / pmp.fatblocksize) := by omega
  constructor
  · rw [hsplit, Nat.add_mul_div_left _ _ (by omega), Nat.div_eq_of_lt hin, Nat.zero_add]
  · rw [hsplit, Nat.add_mul_mod_self_left, Nat.mod_eq_of_lt hin]

/-- The sectors of the table in front of a block. -/
theorem fatbn_eq (hlayout : Layout pmp) (hp : p < fatsize pmp) :
    fatbn pmp p = p / pmp.fatblocksize * pmp.fatblocksec ∧ fatbn pmp p < pmp.fatsecs ∧
      pmp.fatblocksize * (p / pmp.fatblocksize) = fatbn pmp p * pmp.bytesPerSec := by
  have hsecs := hlayout.fatsecs_lt
  have hsplit := Nat.div_add_mod p pmp.fatblocksize
  have hbytes : pmp.fatblocksize * (p / pmp.fatblocksize) =
      p / pmp.fatblocksize * pmp.fatblocksec * pmp.bytesPerSec := by
    rw [hlayout.block_eq]
    ring
  have hlt : p / pmp.fatblocksize * pmp.fatblocksec < pmp.fatsecs := by
    refine Nat.lt_of_mul_lt_mul_right (a := pmp.bytesPerSec) ?_
    rw [← hbytes]
    exact Nat.lt_of_le_of_lt (Nat.le_of_add_right_le (Nat.le_of_eq hsplit)) hp
  have hfatbn : fatbn pmp p = p / pmp.fatblocksize * pmp.fatblocksec := Nat.mod_eq_of_lt (by omega)
  rw [hfatbn]
  exact ⟨rfl, hlt, hbytes⟩

/-- The number and the length of a block. -/
theorem bn_size_eq (hlayout : Layout pmp) (hp : fatbn pmp p ≤ pmp.fatsecs) :
    (fatblock pmp p).bn = fatbn pmp p + pmp.fatblk ∧
      (fatblock pmp p).size =
        min pmp.fatblocksec (pmp.fatsecs - fatbn pmp p) * pmp.bytesPerSec := by
  have hsecs := hlayout.fatsecs_lt
  have hblk := hlayout.fatblk_lt
  have hrest : u32 (pmp.fatsecs + 4294967296 - fatbn pmp p) = pmp.fatsecs - fatbn pmp p := by
    rw [u32]
    omega
  have hmin : min pmp.fatblocksec (pmp.fatsecs - fatbn pmp p) * pmp.bytesPerSec ≤
      65536 * devBsize := Nat.mul_le_mul (by omega) hlayout.sec_le
  constructor
  · exact Nat.mod_eq_of_lt (by omega)
  · unfold devBsize at hmin
    rw [fatblock, hrest]
    exact Nat.mod_eq_of_lt (by omega)

/-- Where a byte of the table is on the device, and that its block lies in the table. -/
theorem fatblock_eq (hlayout : Layout pmp) (hp : p < fatsize pmp) :
    (fatblock pmp p).bn * devBsize + (fatblock pmp p).bo = pmp.fatblk * devBsize + place pmp p ∧
      p / pmp.fatblocksize * (pmp.fatblocksec * devBsize) + (fatblock pmp p).size ≤
        pmp.fatsecs * devBsize ∧
      (fatblock pmp p).bo < (fatblock pmp p).size := by
  obtain ⟨hfatbn, hlt, hbytes⟩ := hlayout.fatbn_eq hp
  obtain ⟨hbn, hsize⟩ := hlayout.bn_size_eq (Nat.le_of_lt hlt)
  have hsplit := Nat.div_add_mod p pmp.fatblocksize
  have hmod := Nat.mod_lt p hlayout.blocksize_pos
  refine ⟨?_, ?_, ?_⟩
  · rw [hbn, place, ← Nat.mul_assoc, ← hfatbn]
    change (fatbn pmp p + pmp.fatblk) * devBsize + p % pmp.fatblocksize = _
    ring
  · rw [hsize, ← Nat.mul_assoc, ← hfatbn]
    calc fatbn pmp p * devBsize +
          min pmp.fatblocksec (pmp.fatsecs - fatbn pmp p) * pmp.bytesPerSec
        ≤ fatbn pmp p * devBsize + (pmp.fatsecs - fatbn pmp p) * devBsize :=
          Nat.add_le_add_left (Nat.mul_le_mul (Nat.min_le_right _ _) hlayout.sec_le) _
      _ = pmp.fatsecs * devBsize := by
          rw [← Nat.add_mul, Nat.add_sub_cancel' (Nat.le_of_lt hlt)]
  · rw [hsize]
    change p % pmp.fatblocksize < _
    rcases Nat.le_total pmp.fatblocksec (pmp.fatsecs - fatbn pmp p) with hcase | hcase
    · rw [Nat.min_eq_left hcase, ← hlayout.block_eq]
      exact hmod
    · rw [Nat.min_eq_right hcase, Nat.sub_mul]
      unfold fatsize at hp
      omega

theorem place_succ (hin : p % pmp.fatblocksize + 1 < pmp.fatblocksize) :
    place pmp (p + 1) = place pmp p + 1 := by
  rw [place, place, (div_succ hin).1, (div_succ hin).2, Nat.add_assoc]

end Layout

end Bsd386.Dosfs.Table
