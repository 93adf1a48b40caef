import Bsd386.Kern.Vm.Map.Refinement

/-!
# Pages of a region

The functions on address spaces take a region in bytes and work on whole pages. The first page is
that of the first byte, `trunc_page(va)`; the end is `round_page(va+sz-1)`, the address of the last
byte rounded up. This is the end of the page of the last byte unless that byte is the first of its
page, or so near the top that the end is not an address.
-/

namespace Bsd386.Kern.Vm

/-- `page_mask`. -/
def pageMask : VmOffset := ⟨4095, by decide⟩

/-- `trunc_page` and `round_page`; `Fin.rev` complements the bits. -/
def truncPage (x : VmOffset) : VmOffset := x &&& pageMask.rev

def roundPage (x : VmOffset) : VmOffset := (x + pageMask) &&& pageMask.rev

/-- `1`, as the functions subtract it. -/
def oneByte : VmOffset := ⟨1, by decide⟩

/-- The first page and the end of a region. -/
def pageRegion (va sz : VmOffset) : VmOffset × VmOffset :=
  (truncPage va, roundPage (va + sz - oneByte))

/-- `vmspace_allocate` at a fixed address truncates `*va` before it computes the end. -/
def allocateRegion (va sz : VmOffset) : VmOffset × VmOffset :=
  (truncPage va, roundPage (truncPage va + sz - oneByte))

/-- `VM_PROT_READ`, `VM_PROT_WRITE` and `PROT_READ`. -/
def vmProtRead : ℕ := 1

def vmProtWrite : ℕ := 2

def protRead : ℕ := 4

/-- `~VM_PROT_WRITE` of a protection. -/
def dropWrite (prot : ℕ) : ℕ := prot ^^^ (prot &&& vmProtWrite)

namespace VmMap

variable {E O : Type} [DecidableEq E]

/-- The loop of `vm_map_check_protection`. -/
def checkLoop (map : VmMap E O) (protection : ℕ) (endAddr : VmOffset) :
    ℕ → Option E → VmOffset → Except Fault Bool
  | 0, _, _ => .error .endless
  | turns + 1, entry, start => do
    if ¬ start < endAddr then return true
    match entry with
    | none => return false
    | some id =>
      let e ← map.entry id
      if start < e.start then return false
      if e.protection &&& protection ≠ protection then return false
      checkLoop map protection endAddr turns (map.next (some id)) e.endAddr

/-- `vm_map_check_protection`. -/
def vmMapCheckProtection (map : VmMap E O) (start endAddr : VmOffset) (protection : ℕ) :
    Except Fault (Bool × VmMap E O) := do
  match ← map.vmMapLookupEntry start with
  | (true, entry, map) =>
    return (← map.checkLoop protection endAddr (map.entries.length + 1) entry start, map)
  | (_, _, map) => return (false, map)

/-- `vmspace_access`. -/
def vmspaceAccess (map : VmMap E O) (addr len : VmOffset) (rw : ℕ) :
    Except Fault (Bool × VmMap E O) :=
  let (start, endAddr) := pageRegion addr len
  map.vmMapCheckProtection start endAddr (if rw = protRead then vmProtRead else vmProtWrite)

end VmMap

/-! ## Rounding -/

theorem land_pages (n : ℕ) (h : n < 4294967296) : n &&& 4294963200 = n - n % 4096 := by
  have hmask : 4294963200 = (2 ^ 20 - 1) <<< 12 := by decide
  have hround : n - n % 4096 = (n >>> 12) <<< 12 := by
    rw [Nat.shiftRight_eq_div_pow, Nat.shiftLeft_eq]
    omega
  rw [hmask, hround]
  refine Nat.eq_of_testBit_eq fun i ↦ ?_
  rw [Nat.testBit_and, Nat.testBit_shiftLeft, Nat.testBit_shiftLeft, Nat.testBit_shiftRight,
    Nat.testBit_two_pow_sub_one]
  by_cases hi : 12 ≤ i
  · have hadd : 12 + (i - 12) = i := by omega
    rw [hadd]
    by_cases htop : i - 12 < 20
    · simp [hi, htop]
    · have hbig : n < 2 ^ i :=
        h.trans_le (Nat.pow_le_pow_right (Nat.succ_pos 1) (by omega : 32 ≤ i))
      simp [Nat.testBit_lt_two_pow hbig]
  · simp [hi]

theorem truncPage_val (x : VmOffset) : (truncPage x).val = x.val - x.val % 4096 := by
  have hval : (truncPage x).val = (x.val &&& 4294963200) % 4294967296 := rfl
  rw [hval, land_pages x.val x.isLt]
  have hlt := x.isLt
  omega

theorem roundPage_val (x : VmOffset) :
    (roundPage x).val = (x.val + 4095) % 4294967296 - (x.val + 4095) % 4294967296 % 4096 := by
  have hval : (roundPage x).val = ((x + pageMask).val &&& 4294963200) % 4294967296 := rfl
  have hsum : (x + pageMask).val = (x.val + 4095) % 4294967296 := rfl
  rw [hval, land_pages _ (x + pageMask).isLt, hsum]
  omega

/-! ## Coverage -/

/-- The range contains every byte of the region. -/
def Covers (range : VmOffset × VmOffset) (va sz : VmOffset) : Prop :=
  ∀ x : VmOffset, va ≤ x → x.val < va.val + sz.val → range.1 ≤ x ∧ x < range.2

/-- The last byte is not the first of its page, nor in the last page of all. -/
def LastInside (va sz : VmOffset) : Prop :=
  (va.val + sz.val - 1) % 4096 ≠ 0 ∧ va.val + sz.val - 1 < 4294963200

/-- What `va` loses by truncation still fits into the pages of the rounded size. -/
def TruncationFits (va sz : VmOffset) : Prop :=
  va.val % 4096 + sz.val ≤ (sz.val - 1 + 4095) / 4096 * 4096

variable {va sz : VmOffset}

theorem last_val (hsz : 0 < sz.val) (hlast : va.val + sz.val < 4294967296) :
    (va + sz - oneByte).val = va.val + sz.val - 1 := by
  have hsum : (va + sz).val = va.val + sz.val := (Fin.val_add va sz).trans (Nat.mod_eq_of_lt hlast)
  have hone : oneByte ≤ va + sz := by
    rw [Fin.le_def, hsum]
    exact Nat.le_add_left_of_le hsz
  rw [Fin.sub_val_of_le hone, hsum]
  rfl

/-- A range that begins no later than the region covers it if its end does. -/
theorem covers_iff {range : VmOffset × VmOffset} (hsz : 0 < sz.val)
    (hlast : va.val + sz.val < 4294967296) (hstart : range.1 ≤ va) :
    Covers range va sz ↔ va.val + sz.val ≤ range.2.val := by
  constructor
  · intro hcovers
    have hle := (hcovers ⟨va.val + sz.val - 1, by omega⟩ (Fin.le_def.2 (by simp only; omega))
      (by simp only; omega)).2
    rw [Fin.lt_def] at hle
    simp only at hle
    omega
  · intro hend x hlo hhi
    exact ⟨hstart.trans hlo, Fin.lt_def.2 (hhi.trans_le hend)⟩

theorem truncPage_le (va : VmOffset) : truncPage va ≤ va := by
  rw [Fin.le_def, truncPage_val]
  exact Nat.sub_le _ _

theorem covers_pageRegion (hsz : 0 < sz.val) (hlast : va.val + sz.val < 4294967296) :
    Covers (pageRegion va sz) va sz ↔ LastInside va sz := by
  rw [covers_iff hsz hlast (truncPage_le va)]
  unfold pageRegion LastInside
  simp only [roundPage_val, last_val hsz hlast]
  omega

theorem covers_allocateRegion (hsz : 0 < sz.val) (hlast : va.val + sz.val < 4294967296)
    (hinside : LastInside va sz) :
    Covers (allocateRegion va sz) va sz ↔ TruncationFits va sz := by
  have htrunc : (truncPage va).val = va.val - va.val % 4096 := truncPage_val va
  rw [covers_iff hsz hlast (truncPage_le va)]
  unfold allocateRegion TruncationFits LastInside at *
  simp only [roundPage_val]
  rw [last_val hsz (by omega), htrunc]
  omega

/-! ## Access -/

namespace VmMap

open Ranges

variable {E O : Type} [DecidableEq E] {map map' : VmMap E O} {l₁ l₂ : List (MapEntry E O)}
  {start endAddr : VmOffset} {protection : ℕ}

omit [DecidableEq E] in
/-- The address is mapped by an entry that grants the protection. -/
def Granted (map : VmMap E O) (protection : ℕ) (x : VmOffset) : Prop :=
  ∃ m, denote map.entries x = some m ∧ m.protection &&& protection = protection

omit [DecidableEq E] in
theorem Wellformed.granted {e : MapEntry E O} (h : map.Wellformed)
    (hl : map.entries = l₁ ++ e :: l₂) (hgrants : e.protection &&& protection = protection)
    {x : VmOffset} (hlo : e.start ≤ x) (hhi : x < e.endAddr) : map.Granted protection x := by
  have hbelow := (ordered_append.1 (hl ▸ h.inOrder)).2.2
  refine ⟨e.mapping x, ?_, hgrants⟩
  rw [hl, denote_insert fun f hf ↦ hbelow f hf e (List.mem_cons_self ..), if_pos ⟨hlo, hhi⟩]

/-- The walk accepts only what is granted. -/
theorem Wellformed.checkLoop (h : map.Wellformed) (turns : ℕ) (hl : map.entries = l₁ ++ l₂)
    (hturns : l₂.length < turns) :
    ∃ granted, map.checkLoop protection endAddr turns (firstId l₂) start = .ok granted ∧
      (granted = true → ∀ x, start ≤ x → x < endAddr → map.Granted protection x) := by
  induction turns generalizing l₁ l₂ start with
  | zero => exact absurd hturns (Nat.not_lt_zero _)
  | succ turns ih =>
    unfold VmMap.checkLoop
    by_cases hstart : start < endAddr
    swap
    · refine ⟨true, if_pos hstart, fun _ x hlo hhi ↦ absurd (hlo.trans_lt hhi) hstart⟩
    rw [if_neg (not_not.2 hstart)]
    cases l₂ with
    | nil => exact ⟨false, rfl, fun hfalse ↦ absurd hfalse Bool.false_ne_true⟩
    | cons e rest =>
      simp only [firstId, List.head?_cons, Option.map_some, entry_split hl h.nodup, bind,
        Except.bind, next_split hl h.nodup]
      by_cases hbefore : start < e.start
      · exact ⟨false, if_pos hbefore, fun hfalse ↦ absurd hfalse Bool.false_ne_true⟩
      rw [if_neg hbefore]
      by_cases hdenied : e.protection &&& protection ≠ protection
      · exact ⟨false, if_pos hdenied, fun hfalse ↦ absurd hfalse Bool.false_ne_true⟩
      rw [if_neg hdenied]
      have hl' : map.entries = (l₁ ++ [e]) ++ rest := by simpa using hl
      obtain ⟨granted, hok, hgranted⟩ : ∃ granted,
          map.checkLoop protection endAddr turns (firstId rest) e.endAddr = .ok granted ∧ _ :=
        ih hl' (Nat.lt_of_succ_lt_succ hturns)
      refine ⟨granted, hok, fun htrue x hlo hhi ↦ ?_⟩
      rcases lt_or_ge x e.endAddr with hx | hx
      · exact h.granted hl (not_not.1 hdenied) ((not_lt.1 hbefore).trans hlo) hx
      · exact hgranted htrue x hx hhi

/-- `vm_map_check_protection` answers, and accepts only a range that is granted throughout. -/
theorem Wellformed.vmMapCheckProtection (h : map.Wellformed) (start endAddr : VmOffset)
    (protection : ℕ) :
    ∃ granted hint, map.vmMapCheckProtection start endAddr protection =
        .ok (granted, { map with hint }) ∧ Live map.entries hint ∧
      (granted = true → ∀ x, start ≤ x → x < endAddr → map.Granted protection x) := by
  unfold VmMap.vmMapCheckProtection
  rcases h.lookup start with
    ⟨l₁, e, l₂, hint, hl, -, -, hlookup, hlive⟩ | ⟨l₁, l₂, hl, -, -, hlookup⟩
  · have hhint : Wellformed { map with hint } :=
      ⟨h.inOrder, h.inside, h.nodup, h.nentries_eq, hlive, h.firstFree_live⟩
    have hturns : (e :: l₂).length < map.entries.length + 1 := by
      rw [hl, List.length_append]
      omega
    obtain ⟨granted, hok, hgranted⟩ := hhint.checkLoop _ hl hturns
    refine ⟨granted, hint, ?_, hlive, hgranted⟩
    have hcheck : VmMap.checkLoop { map with hint } protection endAddr (map.entries.length + 1)
        (some e.id) start = .ok granted := hok
    rw [hlookup]
    simp only [bind, Except.bind, hcheck]
    rfl
  · rw [hlookup]
    exact ⟨false, lastId l₁, rfl, hl ▸ live_lastId,
      fun hfalse ↦ absurd hfalse Bool.false_ne_true⟩

/-- The ranges the functions on address spaces work on contain every byte of the region. The search
for room ends with the range of an address that it found. -/
def RangesCover (va sz : VmOffset) : Prop :=
  Covers (pageRegion va sz) va sz ∧ Covers (allocateRegion va sz) va sz

variable (E O) in
/-- `vmspace_access` accepts only a region every byte of which is mapped with the protection. -/
def AccessSound (va sz : VmOffset) : Prop :=
  ∀ (map map' : VmMap E O) (rw : ℕ), map.Wellformed → map.vmspaceAccess va sz rw = .ok (true,
    map') →
    ∀ x : VmOffset, va ≤ x → x.val < va.val + sz.val →
      map.Granted (if rw = protRead then vmProtRead else vmProtWrite) x

variable {va sz : VmOffset}

theorem accessSound_of_covers (hcovers : Covers (pageRegion va sz) va sz) :
    AccessSound E O va sz := by
  intro map map' rw h haccess x hlo hhi
  obtain ⟨granted, hint, hok, -, hgranted⟩ := h.vmMapCheckProtection (pageRegion va sz).1
    (pageRegion va sz).2 (if rw = protRead then vmProtRead else vmProtWrite)
  have htrue : true = granted := congrArg Prod.fst (Except.ok.inj (haccess.symm.trans hok))
  exact hgranted htrue.symm x (hcovers x hlo hhi).1 (hcovers x hlo hhi).2

/-- The ranges cover the region exactly if the last byte is inside its page and what truncation
takes away fits. -/
theorem page_ranges_cover_iff (hsz : 0 < sz.val) (hlast : va.val + sz.val < 4294967296) :
    RangesCover va sz ∧ AccessSound E O va sz ↔ LastInside va sz ∧ TruncationFits va sz := by
  constructor
  · rintro ⟨⟨hpages, hallocate⟩, -⟩
    have hinside := (covers_pageRegion hsz hlast).1 hpages
    exact ⟨hinside, (covers_allocateRegion hsz hlast hinside).1 hallocate⟩
  · rintro ⟨hinside, hfits⟩
    have hpages := (covers_pageRegion hsz hlast).2 hinside
    exact ⟨⟨hpages, (covers_allocateRegion hsz hlast hinside).2 hfits⟩,
      accessSound_of_covers hpages⟩

theorem page_ranges_cover_words : RangesCover 8196 4 ∧ AccessSound ℕ ℕ 8196 4 :=
  (page_ranges_cover_iff (by decide) (by decide)).2
    ⟨⟨by decide, by decide⟩, show _ ≤ _ by decide⟩

/-- A word whose last byte begins a page: that byte is not looked at, and need not be mapped. -/
theorem page_start_uncovered : ¬ Covers (pageRegion 4093 4) 4093 4 ∧
    ∃ map : VmMap ℕ ℕ, Reachable 0 65536 map ∧ map.vmspaceAccess 4093 4 protRead = .ok (true, map) ∧
      denote map.entries 4096 = none := by
  constructor
  · rw [covers_pageRegion (by decide) (by decide)]
    exact fun hinside ↦ hinside.1 (by decide)
  · let insert : Call ℕ ℕ := .insert above (fun _ _ _ _ _ _ ↦ true) none 0 0 4096
    obtain ⟨map, hok, haccess, hentries⟩ : ∃ map : VmMap ℕ ℕ,
        insert.run (vmMapInit 0 65536) = .ok (.success, map) ∧
          map.vmspaceAccess 4093 4 protRead = .ok (true, map) ∧
            ∀ e ∈ map.entries, e.endAddr ≤ 4096 := ⟨_, rfl, rfl, by decide⟩
    exact ⟨map, .call insert .init above_fresh hok, haccess, piecewise_of_le hentries⟩

end VmMap

end Bsd386.Kern.Vm
