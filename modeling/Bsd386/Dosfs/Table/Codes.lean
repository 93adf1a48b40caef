import Bsd386.Dosfs.Table.Entry

/-!
# Entries as numbers

Twelve bits of the two bytes belong to an entry and four to its neighbour. A number that is wider
than twelve bits reaches into the neighbour when the entry is an even one.
-/

namespace Bsd386.Dosfs.Table

variable {pmp : Pcfsmount} {disk disk' : Disk} {c cn p q word value newcontents : ℕ}

/-! ## Bits as arithmetic -/

theorem unpack_eq : unpack cn word = (if cn % 2 = 1 then word / 16 else word) % 4096 := by
  rw [unpack, Nat.shiftRight_eq_div_pow]
  exact Nat.and_two_pow_sub_one_eq_mod _ 12

/-- A mask in front of `n` bits takes its bits of the number without them. -/
theorem and_shiftLeft (word mask n : ℕ) :
    word &&& mask <<< n = (word >>> n &&& mask) <<< n := by
  apply Nat.eq_of_testBit_eq
  intro i
  rw [Nat.testBit_and, Nat.testBit_shiftLeft, Nat.testBit_shiftLeft, Nat.testBit_and,
    Nat.testBit_shiftRight]
  by_cases hi : n ≤ i
  · simp [hi]
  · simp [hi]

theorem widen_eq (hword : word < 4096) :
    widen word = if 0xff0 ≤ word then word + 0xf000 else word := by
  have hmask : word &&& 0x0ff0 = word / 16 * 16 := by
    calc word &&& 0x0ff0 = (word >>> 4 &&& 0xff) <<< 4 := and_shiftLeft word 0xff 4
      _ = word / 16 % 256 * 16 := by
          rw [Nat.shiftLeft_eq, Nat.shiftRight_eq_div_pow]
          exact congrArg (· * 16) (Nat.and_two_pow_sub_one_eq_mod _ 8)
      _ = word / 16 * 16 := by omega
  have hor : word ||| 0xf000 = word + 0xf000 := by
    rw [Nat.or_comm, Nat.add_comm]
    exact (Nat.shiftLeft_add_eq_or_of_lt (i := 12) hword 15).symm
  rw [widen, hmask, hor]
  exact if_congr (by omega) rfl rfl

theorem pack_odd (hodd : cn % 2 = 1) :
    pack cn word newcontents = word % 16 + 16 * newcontents := by
  have hlow : word &&& 0x000f = word % 16 := Nat.and_two_pow_sub_one_eq_mod word 4
  rw [pack, if_pos hodd, hlow, Nat.or_comm,
    ← Nat.shiftLeft_add_eq_or_of_lt (Nat.mod_lt _ (by decide)), Nat.shiftLeft_eq]
  ring

theorem and_high (hword : word < 65536) : word &&& 0xf000 = word / 4096 * 4096 := by
  calc word &&& 0xf000 = (word >>> 12 &&& 0xf) <<< 12 := and_shiftLeft word 0xf 12
    _ = word / 4096 % 16 * 4096 := by
        rw [Nat.shiftLeft_eq, Nat.shiftRight_eq_div_pow]
        exact congrArg (· * 4096) (Nat.and_two_pow_sub_one_eq_mod _ 4)
    _ = word / 4096 * 4096 := by omega

theorem pack_even (heven : cn % 2 ≠ 1) (hword : word < 65536) (hnew : newcontents < 4096) :
    pack cn word newcontents = word / 4096 * 4096 + newcontents := by
  rw [pack, if_neg heven, and_high hword, Nat.shiftLeft_zero]
  have hor := Nat.shiftLeft_add_eq_or_of_lt (i := 12) hnew (word / 4096)
  rw [Nat.shiftLeft_eq] at hor
  exact hor.symm

theorem pack_even_eofe (heven : cn % 2 ≠ 1) (hword : word < 65536) :
    pack cn word clustEofe = 65535 := by
  have hall : ∀ k < 16, k * 4096 ||| 65535 = 65535 := by decide
  rw [pack, if_neg heven, and_high hword, Nat.shiftLeft_zero]
  exact hall _ (by omega)

/-! ## What is stored -/

theorem wordAt_lt : wordAt pmp disk p < 65536 := by
  have hlow := (byteAt pmp disk p).isLt
  have hhigh := (byteAt pmp disk (p + 1)).isLt
  unfold wordAt
  omega

/-- The table as `fatentry` reads it. -/
def entryAt (pmp : Pcfsmount) (disk : Disk) (c : ℕ) : ℕ :=
  decode pmp c (wordAt pmp disk (entryOfs pmp c))

namespace Written

/-- The two bytes of the entry that has been written. -/
theorem wordAt_self (hwritten : Written pmp p value disk disk') (hp : p + 1 < fatsize pmp) :
    wordAt pmp disk' p = value % 65536 := by
  rw [wordAt, hwritten.byteAt_eq p (Nat.lt_of_succ_lt hp), hwritten.byteAt_eq (p + 1) hp,
    if_pos rfl, if_neg (by omega), if_pos rfl, BitVec.toNat_ofNat, BitVec.toNat_ofNat]
  omega

/-- An entry that has no byte with it in common. -/
theorem wordAt_apart (hwritten : Written pmp p value disk disk') (hq : q + 1 < fatsize pmp)
    (hapart : q + 1 < p ∨ p + 1 < q) : wordAt pmp disk' q = wordAt pmp disk q := by
  rw [wordAt, hwritten.byteAt_eq q (Nat.lt_of_succ_lt hq), hwritten.byteAt_eq (q + 1) hq,
    if_neg (by omega), if_neg (by omega), if_neg (by omega), if_neg (by omega), wordAt]

/-- An entry whose last byte is the first one of the entry that has been written. -/
theorem wordAt_before (hwritten : Written pmp p value disk disk') (hq : q + 1 < fatsize pmp)
    (hshared : q + 1 = p) :
    wordAt pmp disk' q = (byteAt pmp disk q).toNat + 256 * (value % 256) := by
  rw [wordAt, hwritten.byteAt_eq q (Nat.lt_of_succ_lt hq), hwritten.byteAt_eq (q + 1) hq,
    if_neg (by omega), if_neg (by omega), if_pos hshared, BitVec.toNat_ofNat]

/-- An entry whose first byte is the last one of the entry that has been written. -/
theorem wordAt_behind (hwritten : Written pmp p value disk disk') (hq : q + 1 < fatsize pmp)
    (hshared : q = p + 1) :
    wordAt pmp disk' q = value / 256 % 256 + 256 * (byteAt pmp disk (q + 1)).toNat := by
  rw [wordAt, hwritten.byteAt_eq q (Nat.lt_of_succ_lt hq), hwritten.byteAt_eq (q + 1) hq,
    if_neg (by omega), if_pos hshared, if_neg (by omega), if_neg (by omega), BitVec.toNat_ofNat]

end Written

/-- A value that `FAT_SET` can store for a cluster without changing another entry. -/
def Storable (pmp : Pcfsmount) (cn newcontents : ℕ) : Prop :=
  if fat12 pmp.maxcluster then
    newcontents < 0xff0 ∨ newcontents = clustEofe ∧ (cn % 2 = 1 ∨ cn = pmp.maxcluster)
  else newcontents ≤ 0xffff

theorem decode_twelve (htwelve : fat12 pmp.maxcluster = true) :
    decode pmp c word = widen (unpack c word) := if_pos htwelve

/-- What is read back. -/
theorem entryAt_self
    (hwritten : Written pmp (entryOfs pmp cn) (encode pmp disk cn newcontents) disk disk')
    (hentry : entryOfs pmp cn + 2 ≤ fatsize pmp)
    (hnew : fat12 pmp.maxcluster → newcontents < 4096 ∨ newcontents = clustEofe) :
    entryAt pmp disk' cn =
      if fat12 pmp.maxcluster then widen (newcontents % 4096) else newcontents % 65536 := by
  have hword : wordAt pmp disk (entryOfs pmp cn) < 65536 := wordAt_lt
  rw [entryAt, hwritten.wordAt_self hentry, encode, decode]
  by_cases htwelve : fat12 pmp.maxcluster
  · rw [if_pos htwelve, if_pos htwelve, if_pos htwelve, unpack_eq]
    congr 1
    by_cases hodd : cn % 2 = 1
    · rw [if_pos hodd, pack_odd hodd]
      omega
    · rw [if_neg hodd]
      rcases hnew htwelve with hsmall | heof
      · rw [pack_even hodd hword hsmall]
        omega
      · rw [heof, pack_even_eofe hodd hword]
        rfl
  · rw [if_neg htwelve, if_neg htwelve, if_neg htwelve]

/-- In a table of 12 bits only the two entries of a pair share a byte. -/
theorem apart_or_pair (htwelve : fat12 pmp.maxcluster = true) (hne : c ≠ cn) :
    (entryOfs pmp c + 1 < entryOfs pmp cn ∨ entryOfs pmp cn + 1 < entryOfs pmp c) ∨
      cn % 2 = 1 ∧ c % 2 ≠ 1 ∧ entryOfs pmp c + 1 = entryOfs pmp cn ∨
      cn % 2 ≠ 1 ∧ c = cn + 1 ∧ entryOfs pmp c = entryOfs pmp cn + 1 := by
  unfold entryOfs
  rw [if_pos htwelve, if_pos htwelve]
  omega

theorem apart_of_sixteen (hsixteen : ¬fat12 pmp.maxcluster = true) (hne : c ≠ cn) :
    entryOfs pmp c + 1 < entryOfs pmp cn ∨ entryOfs pmp cn + 1 < entryOfs pmp c := by
  unfold entryOfs
  rw [if_neg hsixteen, if_neg hsixteen]
  omega

/-- The other entries keep what they have. -/
theorem entryAt_other
    (hwritten : Written pmp (entryOfs pmp cn) (encode pmp disk cn newcontents) disk disk')
    (hc : entryOfs pmp c + 2 ≤ fatsize pmp) (hne : c ≠ cn)
    (hnew : fat12 pmp.maxcluster → cn % 2 ≠ 1 → c = cn + 1 → newcontents < 4096) :
    entryAt pmp disk' c = entryAt pmp disk c := by
  have hword : wordAt pmp disk (entryOfs pmp cn) < 65536 := wordAt_lt
  by_cases htwelve : fat12 pmp.maxcluster = true
  · rcases apart_or_pair htwelve hne with hapart | ⟨hodd, hceven, hshared⟩ | ⟨heven, hnext, hshared⟩
    · rw [entryAt, hwritten.wordAt_apart hc hapart, entryAt]
    · rw [entryAt, hwritten.wordAt_before hc hshared, entryAt, wordAt, hshared,
        decode_twelve htwelve, decode_twelve htwelve, unpack_eq, unpack_eq, if_neg hceven,
        if_neg hceven, encode, if_pos htwelve, pack_odd hodd]
      unfold wordAt
      congr 1
      omega
    · have hcodd : c % 2 = 1 := by omega
      rw [entryAt, hwritten.wordAt_behind hc hshared, entryAt, decode_twelve htwelve,
        decode_twelve htwelve, unpack_eq, unpack_eq, if_pos hcodd, if_pos hcodd, encode,
        if_pos htwelve, pack_even heven hword (hnew htwelve heven hnext)]
      have hsmall := hnew htwelve heven hnext
      have hlow := (byteAt pmp disk (entryOfs pmp cn)).isLt
      have hhigh := (byteAt pmp disk (entryOfs pmp cn + 1)).isLt
      rw [wordAt, wordAt, hshared]
      congr 1
      omega
  · rw [entryAt, hwritten.wordAt_apart hc (apart_of_sixteen htwelve hne), entryAt]

/-- A storable value is stored as an array stores it. -/
theorem entryAt_written
    (hwritten : Written pmp (entryOfs pmp cn) (encode pmp disk cn newcontents) disk disk')
    (hfits : Fits pmp) (hcn : cn ≤ pmp.maxcluster) (hc : c ≤ pmp.maxcluster)
    (hstorable : Storable pmp cn newcontents) :
    entryAt pmp disk' c = if c = cn then newcontents else entryAt pmp disk c := by
  unfold Storable at hstorable
  by_cases hself : c = cn
  · subst hself
    rw [if_pos rfl, entryAt_self hwritten (hfits.entry hc)]
    · split_ifs at hstorable ⊢ with htwelve
      · rcases hstorable with hsmall | ⟨heof, -⟩
        · rw [widen_eq (by omega), if_neg (by omega)]
          omega
        · rw [heof]
          decide
      · omega
    · intro htwelve
      rw [if_pos htwelve] at hstorable
      exact hstorable.imp (by omega) And.left
  · rw [if_neg hself]
    refine entryAt_other hwritten (hfits.entry hc) hself fun htwelve heven hnext ↦ ?_
    rw [if_pos htwelve] at hstorable
    omega

end Bsd386.Dosfs.Table

/-!
# The other readers of the table

`pcbmap` keeps a buffer as long as the block is the same, and `fillinusemap` as long as the offset
in the block is not zero. Both see the entries that `fatentry` sees.
-/

namespace Bsd386.Dosfs.Table

variable {pmp : Pcfsmount} {disk : Disk} {c cn p q n i : ℕ} {s : Fill}

/-- `fatentry` reads an entry. -/
def Gets (pmp : Pcfsmount) (disk : Disk) (c x : ℕ) : Prop :=
  fatentry true false pmp c 0 disk = .ok (some x, disk)

theorem gets_iff (hlayout : Layout pmp) (hfits : Fits pmp) (hfirst : clustFirst ≤ c)
    (hlast : c ≤ pmp.maxcluster) {x : ℕ} : Gets pmp disk c x ↔ entryAt pmp disk c = x := by
  rw [Gets, fatentry_get hlayout hfirst hlast (hfits.entry hlast)]
  constructor
  · intro heq
    injection heq with heq
    exact Option.some.inj (congrArg Prod.fst heq)
  · intro heq
    rw [← heq]
    rfl

/-- The buffer that is read for the block of an offset. -/
def blockAt (pmp : Pcfsmount) (disk : Disk) (p : ℕ) : List Byte :=
  bread disk (fatblock pmp p).bn (fatblock pmp p).size

theorem Layout.blockAt_congr (hlayout : Layout pmp) (hp : p < fatsize pmp) (hq : q < fatsize pmp)
    (hbn : (fatblock pmp p).bn = (fatblock pmp q).bn) :
    blockAt pmp disk p = blockAt pmp disk q := by
  have hp' := hlayout.bn_size_eq (Nat.le_of_lt (hlayout.fatbn_eq hp).2.1)
  have hq' := hlayout.bn_size_eq (Nat.le_of_lt (hlayout.fatbn_eq hq).2.1)
  have hfatbn : fatbn pmp p = fatbn pmp q := by
    rw [hp'.1, hq'.1] at hbn
    exact Nat.add_right_cancel hbn
  rw [blockAt, blockAt, hbn, hp'.2, hq'.2, hfatbn]

/-! ## `pcbmap` -/

/-- The loop of `pcbmap` as it would be with `fatentry`. -/
def follow (pmp : Pcfsmount) (disk : Disk) : ℕ → ℕ → ℕ → Except Fault Walked
  | 0, i, cn => .ok (if Pcfseof cn then .hiteof i else .mapped cn)
  | n + 1, i, cn =>
    if Pcfseof cn then .ok (.hiteof i)
    else
      (fatentry true false pmp cn 0 disk).bind fun got ↦ follow pmp disk n (i + 1) (got.1.getD 0)

/-- A buffer that is kept has the bytes of its block. -/
def Kept (pmp : Pcfsmount) (disk : Disk) (bp : Option (ℕ × List Byte)) : Prop :=
  ∀ x ∈ bp, ∃ p < fatsize pmp, x = ((fatblock pmp p).bn, blockAt pmp disk p)

theorem Kept.reuse (hlayout : Layout pmp) {bp : Option (ℕ × List Byte)} (hkept : Kept pmp disk bp)
    (hp : p < fatsize pmp) :
    (bp.filter fun bp ↦ bp.1 = (fatblock pmp p).bn).getD
        ((fatblock pmp p).bn, bread disk (fatblock pmp p).bn (fatblock pmp p).size) =
      ((fatblock pmp p).bn, blockAt pmp disk p) := by
  cases bp with
  | none => rfl
  | some x =>
    obtain ⟨q, hq, hx⟩ := hkept x rfl
    by_cases hbn : x.1 = (fatblock pmp p).bn
    · have hblock : (fatblock pmp q).bn = (fatblock pmp p).bn := by rw [← hbn, hx]
      rw [Option.filter_some, if_pos (by simpa using hbn), Option.getD_some, hx, hblock,
        hlayout.blockAt_congr hq hp hblock]
    · rw [Option.filter_some, if_neg (by simpa using hbn)]
      rfl

theorem pcbmapLoop_eq (hlayout : Layout pmp) (hfits : Fits pmp) {bp : Option (ℕ × List Byte)}
    (hkept : Kept pmp disk bp) {r : Walked} (hfollow : follow pmp disk n i cn = .ok r) :
    pcbmapLoop pmp disk n i cn bp = .ok r := by
  induction n generalizing i cn bp with
  | zero => exact hfollow
  | succ n ih =>
    rw [follow] at hfollow
    rw [pcbmapLoop]
    by_cases heof : Pcfseof cn
    · rw [if_pos heof] at hfollow ⊢
      exact hfollow
    · rw [if_neg heof] at hfollow ⊢
      by_cases hcn : cn < clustFirst ∨ pmp.maxcluster < cn
      · rw [fatentry, if_pos hcn] at hfollow
        cases hfollow
      · have hhas := has_iff_not_error.mp hcn
        have hslot := hlayout.slot (hfits.entry hhas.2)
        rw [fatentry_get hlayout hhas.1 hhas.2 (hfits.entry hhas.2)] at hfollow
        have hp := Nat.lt_of_succ_lt hslot.in_table
        dsimp only
        rw [hlayout.fatofs_eq (hfits.entry hhas.2), hkept.reuse hlayout hp, blockAt,
          hslot.getushort_eq hlayout]
        refine ih ?_ hfollow
        intro x hx
        exact ⟨_, hp, (Option.mem_some_iff.mp hx).symm⟩

/-! ## `fillinusemap` -/

theorem div_eq_of_le_mod {f d : ℕ} (hd : d ≤ p % f) : (p - d) / f = p / f := by
  have hsplit := Nat.div_add_mod p f
  rcases Nat.eq_zero_or_pos f with hf | hf
  · rw [hf, Nat.div_zero, Nat.div_zero]
  · have hmod := Nat.mod_lt p hf
    have hsub : p - d = (p % f - d) + f * (p / f) := by omega
    rw [hsub, Nat.add_mul_div_left _ _ hf, Nat.div_eq_of_lt (by omega), Nat.zero_add]

/-- The block changes only where an entry begins it. -/
theorem Layout.block_of_bo (hlayout : Layout pmp) (hc : 0 < c)
    (hbo : entryOfs pmp c % pmp.fatblocksize ≠ 0) :
    entryOfs pmp (c - 1) / pmp.fatblocksize = entryOfs pmp c / pmp.fatblocksize := by
  have hpos := hlayout.sec_pos
  obtain ⟨d, hd, hle⟩ : ∃ d, entryOfs pmp (c - 1) = entryOfs pmp c - d ∧
      d ≤ entryOfs pmp c % pmp.fatblocksize := by
    unfold entryOfs at hbo ⊢
    split_ifs at hbo ⊢ with htwelve
    · have hsize : pmp.fatblocksize = 3 * pmp.bytesPerSec := by
        rw [hlayout.block_eq, hlayout.twelve htwelve]
      have hthree : c * 3 / 2 % (3 * pmp.bytesPerSec) % 3 = c * 3 / 2 % 3 :=
        Nat.mod_mul_right_mod _ _ _
      rw [hsize] at hbo ⊢
      by_cases hodd : c % 2 = 1
      · exact ⟨1, by omega, by omega⟩
      · exact ⟨2, by omega, by omega⟩
    · rw [hlayout.sixteen (by simpa using htwelve), maxbsize] at hbo ⊢
      exact ⟨2, by omega, by omega⟩
  rw [hd]
  exact div_eq_of_le_mod hle

theorem Layout.blockAt_prev (hlayout : Layout pmp) (hc : 0 < c)
    (hbo : entryOfs pmp c % pmp.fatblocksize ≠ 0) :
    blockAt pmp disk (entryOfs pmp (c - 1)) = blockAt pmp disk (entryOfs pmp c) := by
  have hdiv := hlayout.block_of_bo hc hbo
  simp only [blockAt, fatblock, fatbn, hdiv]

/-- What `fillinusemap` knows in front of a cluster. -/
structure FilledTo (pmp : Pcfsmount) (disk : Disk) (c : ℕ) (s : Fill) : Prop where
  bp_eq : ∀ bp ∈ s.bp, bp = blockAt pmp disk (entryOfs pmp (c - 1))
  below : ∀ d, clustFirst ≤ d → d < c →
    (Bitmap.get s.inusemap d = false ↔ entryAt pmp disk d = 0)
  above : ∀ d, c ≤ d → d ≤ pmp.maxcluster → Bitmap.get s.inusemap d = true

theorem FilledTo.buffer_eq (hlayout : Layout pmp) (hfits : Fits pmp)
    (hfilled : FilledTo pmp disk c s) (hfirst : clustFirst ≤ c) (hlast : c ≤ pmp.maxcluster) :
    s.buffer pmp disk c = blockAt pmp disk (entryOfs pmp c) := by
  rw [Fill.buffer, hlayout.fatofs_eq (hfits.entry hlast)]
  by_cases hbo : (fatblock pmp (entryOfs pmp c)).bo = 0
  · rw [if_pos hbo, blockAt]
  · rw [if_neg hbo]
    cases hbp : s.bp with
    | none => rfl
    | some bp =>
      have hc : 0 < c := Nat.lt_of_lt_of_le (by decide) hfirst
      rw [Option.getD_some, hfilled.bp_eq bp hbp, hlayout.blockAt_prev hc hbo]

theorem widen_eq_zero_iff : (if fat12 pmp.maxcluster then unpack cn q else q) = 0 ↔
    decode pmp cn q = 0 := by
  unfold decode
  split_ifs
  · have hlt : unpack cn q < 4096 := by
      rw [unpack_eq]
      exact Nat.mod_lt _ (by decide)
    rw [widen_eq hlt]
    by_cases hspecial : 0xff0 ≤ unpack cn q
    · rw [if_pos hspecial]
      exact iff_of_false (by omega) (by omega)
    · rw [if_neg hspecial]
  · rfl

/-- One turn of the loop. -/
theorem FilledTo.step (hlayout : Layout pmp) (hfits : Fits pmp) (hfilled : FilledTo pmp disk c s)
    (hfirst : clustFirst ≤ c) (hlast : c ≤ pmp.maxcluster) :
    ∃ s', Fill.step pmp disk s c = .ok s' ∧ FilledTo pmp disk (c + 1) s' := by
  have hslot := hlayout.slot (hfits.entry hlast)
  have hbits : ∀ d, d ≠ c → Bitmap.get (Bitmap.clear s.inusemap c) d = Bitmap.get s.inusemap d := by
    intro d hd
    rw [Bitmap.get_clear (by decide), decide_eq_false hd, Bool.not_false, Bool.true_and]
  have hstep : Fill.step pmp disk s c =
      .ok (if entryAt pmp disk c = 0 then
          ({ s with bp := some (blockAt pmp disk (entryOfs pmp c)) } : Fill).usemapFree c
        else { s with bp := some (blockAt pmp disk (entryOfs pmp c)) }) := by
    rw [Fill.step]
    dsimp only
    rw [hfilled.buffer_eq hlayout hfits hfirst hlast, hlayout.fatofs_eq (hfits.entry hlast),
      blockAt, hslot.getushort_eq hlayout]
    exact congrArg Except.ok (if_congr widen_eq_zero_iff rfl rfl)
  refine ⟨_, hstep, ?_⟩
  by_cases hfree : entryAt pmp disk c = 0
  · rw [if_pos hfree]
    refine ⟨fun bp hbp ↦ (Option.mem_some_iff.mp hbp).symm, fun d hd hlt ↦ ?_, fun d hle hd ↦ ?_⟩
    · by_cases hdc : d = c
      · rw [hdc]
        refine iff_of_true ?_ hfree
        exact (Bitmap.get_clear (by decide)).trans (by simp)
      · exact (hbits d hdc).symm ▸ hfilled.below d hd (by omega)
    · exact (hbits d (by omega)).trans (hfilled.above d (by omega) hd)
  · rw [if_neg hfree]
    refine ⟨fun bp hbp ↦ (Option.mem_some_iff.mp hbp).symm, fun d hd hlt ↦ ?_, fun d hle hd ↦ ?_⟩
    · by_cases hdc : d = c
      · rw [hdc]
        exact iff_of_false (by simp [hfilled.above c (Nat.le_refl c) hlast]) hfree
      · exact hfilled.below d hd (by omega)
    · exact hfilled.above d (by omega) hd

theorem FilledTo.run (hlayout : Layout pmp) (hfits : Fits pmp) (hfilled : FilledTo pmp disk c s)
    (hfirst : clustFirst ≤ c) (hend : c + n = pmp.maxcluster + 1) :
    ∃ s', (List.range' c n).foldlM (Fill.step pmp disk) s = .ok s' ∧
      FilledTo pmp disk (pmp.maxcluster + 1) s' := by
  induction n generalizing c s with
  | zero =>
    have hc : c = pmp.maxcluster + 1 := hend
    exact ⟨s, rfl, hc ▸ hfilled⟩
  | succ n ih =>
    obtain ⟨s₁, hstep, hfilled₁⟩ := hfilled.step hlayout hfits hfirst (by omega)
    obtain ⟨s₂, hrun, hfilled₂⟩ := ih hfilled₁ (by omega) (by omega)
    refine ⟨s₂, ?_, hfilled₂⟩
    rw [List.range'_succ, List.foldlM_cons, hstep]
    exact hrun

/-- The bitmap has a clear bit exactly for each free entry. -/
theorem fillinusemap_eq (hlayout : Layout pmp) (hfits : Fits pmp)
    (hmax : clustFirst ≤ pmp.maxcluster) (inusemap : ℕ → BitVec 8) :
    ∃ s, fillinusemap pmp disk inusemap = .ok s ∧
      ∀ c, clustFirst ≤ c → c ≤ pmp.maxcluster →
        (Bitmap.get s.inusemap c = false ↔ entryAt pmp disk c = 0) := by
  have hstart : FilledTo pmp disk clustFirst
      { bp := none
        inusemap := fun i ↦ if i < pmp.maxcluster / 8 + 1 then BitVec.allOnes 8 else inusemap i
        freeclustercount := 0
        lookhere := pmp.maxcluster + 1 } := by
    refine ⟨fun bp hbp ↦ absurd hbp (by simp), fun d hd hlt ↦ absurd hd (by omega), fun d _ hd ↦ ?_⟩
    refine Bitmap.get_of_allOnes (by decide) (if_pos ?_)
    exact Nat.lt_succ_of_le (Nat.div_le_div_right hd)
  obtain ⟨s, hrun, hfilled⟩ :=
    hstart.run hlayout hfits (Nat.le_refl _) (n := pmp.maxcluster + 1 - clustFirst) (by omega)
  exact ⟨s, hrun, fun c hfirst hlast ↦ hfilled.below c hfirst (by omega)⟩

end Bsd386.Dosfs.Table
