import Bsd386.Kern.Vm.Map.Operations
import Bsd386.Kern.Vm.Space.Returned

/-!
# Protections and translations

`vmspace_protect` has `pmap_protect` take permissions from the translations of the addresses whose
protection changes. Of an entry that leads to a share map it does so for each entry that the share
map has in the range.
-/

namespace Bsd386.Kern.Vm

variable {E O M : Type}

/-! ## Translations -/

/-- `pmap_protect` on the write permission of a translation. Without `VM_PROT_READ` the translation
is removed, with `VM_PROT_WRITE` it stays as it is, and otherwise it becomes read only. -/
def pmapProtectPage (prot : ℕ) (writable : Bool) : Bool :=
  if prot &&& vmProtRead = 0 then false
  else if prot &&& vmProtWrite ≠ 0 then writable
  else false

/-- The write permission of an address after calls of `pmap_protect`. -/
def writableAfter [DecidableEq M] (calls : List (PmapProtect M)) (m : M) (x : VmOffset)
    (writable : Bool) : Bool :=
  calls.foldl (fun writable c ↦
    if c.map = m ∧ c.start ≤ x ∧ x < c.endAddr then pmapProtectPage c.prot writable
    else writable) writable

/-- A protection that `pmap_protect` does not take the write permission for. -/
def Writes (prot : ℕ) : Prop := prot &&& vmProtRead ≠ 0 ∧ prot &&& vmProtWrite ≠ 0

instance (prot : ℕ) : Decidable (Writes prot) := inferInstanceAs (Decidable (_ ∧ _))

theorem pmapProtectPage_eq_true {prot : ℕ} {writable : Bool} :
    pmapProtectPage prot writable = true ↔ writable = true ∧ Writes prot := by
  unfold pmapProtectPage Writes
  split_ifs with hread hwrite
  · exact iff_of_false (by simp) fun h ↦ h.2.1 hread
  · exact ⟨fun h ↦ ⟨h, hread, hwrite⟩, fun h ↦ h.1⟩
  · exact iff_of_false (by simp) fun h ↦ hwrite h.2.2

/-- One of the calls takes the write permission of an address. -/
def RevokedBy (calls : List (PmapProtect M)) (m : M) (x : VmOffset) : Prop :=
  ∃ c ∈ calls, c.map = m ∧ c.start ≤ x ∧ x < c.endAddr ∧ ¬ Writes c.prot

theorem revokedBy_append {calls calls' : List (PmapProtect M)} {m : M} {x : VmOffset} :
    RevokedBy (calls ++ calls') m x ↔ RevokedBy calls m x ∨ RevokedBy calls' m x := by
  unfold RevokedBy
  simp only [List.mem_append, or_and_right, exists_or]

theorem writableAfter_eq_true [DecidableEq M] {calls : List (PmapProtect M)} {m : M} {x : VmOffset}
    {writable : Bool} :
    writableAfter calls m x writable = true ↔ writable = true ∧ ¬ RevokedBy calls m x := by
  induction calls generalizing writable with
  | nil => simp [writableAfter, RevokedBy]
  | cons c calls ih =>
    have hcons : RevokedBy (c :: calls) m x ↔
        (c.map = m ∧ c.start ≤ x ∧ x < c.endAddr) ∧ ¬ Writes c.prot ∨ RevokedBy calls m x := by
      unfold RevokedBy
      simp only [List.exists_mem_cons_iff, and_assoc]
    rw [hcons]
    change writableAfter calls m x (if c.map = m ∧ c.start ≤ x ∧ x < c.endAddr then
      pmapProtectPage c.prot writable else writable) = true ↔ _
    rw [ih]
    split_ifs with hin
    · rw [pmapProtectPage_eq_true]
      tauto
    · tauto

/-- `MASK` takes the write permission if the entry is copied on write. -/
theorem writes_maskProt {e : MapEntry E (Ref O M)} {prot : ℕ} :
    Writes (Space.maskProt e prot) ↔ e.copyOnWrite = false ∧ Writes prot := by
  unfold Space.maskProt
  split_ifs with hcow
  · have hnone : dropWrite prot &&& vmProtWrite = 0 := by
      unfold dropWrite
      rw [Nat.and_xor_distrib_right, Nat.and_assoc, Nat.and_self, Nat.xor_self]
    exact iff_of_false (fun h ↦ h.2 hnone) fun h ↦ by simp [hcow] at h
  · have hall : ∀ bit, Space.vmProtAll &&& bit = bit →
        prot &&& Space.vmProtAll &&& bit = prot &&& bit := by
      intro bit hbit
      rw [Nat.and_assoc, hbit]
    unfold Writes
    rw [hall vmProtRead rfl, hall vmProtWrite rfl]
    simp [hcow]

theorem not_writes_maskProt {e : MapEntry E (Ref O M)} {prot : ℕ} :
    ¬ Writes (Space.maskProt e prot) ↔ ¬ Writes prot ∨ e.copyOnWrite := by
  rw [writes_maskProt]
  cases e.copyOnWrite with
  | true => simp
  | false => simp

/-! ## Share maps -/

/-- The address of a share map that an entry maps an address to, and the end of its range there. -/
def MapEntry.inner (e : MapEntry E O) (x : VmOffset) : VmOffset := e.offset + (x - e.start)

/-- Through a share map, the address is in an entry that is copied on write. -/
def CowThrough (maps : Maps E O M) (s : Seen (Ref O M)) : Prop :=
  ∃ n share t, s.object = some (.map n) ∧ maps n = some share ∧
    see share.entries s.offset = some t ∧ t.copyOnWrite

/-- An entry that leads to a share map leads to another map, which maps all of its range. -/
def Shares (maps : Maps E O M) (m : M) (e : MapEntry E (Ref O M)) : Prop :=
  e.isAMap → ∃ n share, n ≠ m ∧ e.object = some (.map n) ∧ maps n = some share ∧
    share.Wellformed ∧ e.offset ≤ e.inner e.endAddr ∧
      ∀ y, e.offset ≤ y → y < e.inner e.endAddr → see share.entries y ≠ none

section Inner

variable {e : MapEntry E O} {x y a : VmOffset}

/-- The range in the share map is as long as the entry. -/
theorem inner_end_val (hne : e.start < e.endAddr) (hspan : e.offset ≤ e.inner e.endAddr) :
    (e.inner e.endAddr).val = e.offset.val + (e.endAddr.val - e.start.val) := by
  have hsub : (e.endAddr - e.start).val = e.endAddr.val - e.start.val := Fin.sub_val_of_le hne.le
  have hadd : (e.inner e.endAddr).val = (e.offset.val + (e.endAddr - e.start).val) % 4294967296 :=
    Fin.val_add _ _
  have hle : e.offset.val ≤ (e.inner e.endAddr).val := hspan
  have hlt : e.start.val < e.endAddr.val := hne
  have hoffset := e.offset.isLt
  have hend := e.endAddr.isLt
  omega

theorem inner_val (hspan : e.offset ≤ e.inner e.endAddr) (hlo : e.start ≤ x) (hhi : x < e.endAddr) :
    (e.inner x).val = e.offset.val + (x.val - e.start.val) := by
  have hend := inner_end_val (hlo.trans_lt hhi) hspan
  have hsub : (x - e.start).val = x.val - e.start.val := Fin.sub_val_of_le hlo
  have hadd : (e.inner x).val = (e.offset.val + (x - e.start).val) % 4294967296 := Fin.val_add _ _
  have hlt : x.val < e.endAddr.val := hhi
  have hbound := (e.inner e.endAddr).isLt
  omega

theorem inner_mem (hspan : e.offset ≤ e.inner e.endAddr) (hlo : e.start ≤ x) (hhi : x < e.endAddr) :
    e.offset ≤ e.inner x ∧ e.inner x < e.inner e.endAddr := by
  have hend := inner_end_val (hlo.trans_lt hhi) hspan
  have hx := inner_val hspan hlo hhi
  have hle : e.start.val ≤ x.val := hlo
  have hlt : x.val < e.endAddr.val := hhi
  constructor
  · change e.offset.val ≤ (e.inner x).val
    omega
  · change (e.inner x).val < (e.inner e.endAddr).val
    omega

/-- An address of the share map, as an address of the map. -/
theorem outer_val (hne : e.start < e.endAddr) (hspan : e.offset ≤ e.inner e.endAddr)
    (hlo : e.offset ≤ a) (hhi : a ≤ e.inner e.endAddr) :
    (a - e.offset + e.start).val = e.start.val + (a.val - e.offset.val) := by
  have hend := inner_end_val hne hspan
  have hsub : (a - e.offset).val = a.val - e.offset.val := Fin.sub_val_of_le hlo
  have hadd : (a - e.offset + e.start).val = ((a - e.offset).val + e.start.val) % 4294967296 :=
    Fin.val_add _ _
  have hle : a.val ≤ (e.inner e.endAddr).val := hhi
  have hlt : e.start.val < e.endAddr.val := hne
  have hbound := e.endAddr.isLt
  omega

/-- The range of a share map's entry, cut to the range that is shared. -/
theorem mem_outer_iff (hne : e.start < e.endAddr) (hspan : e.offset ≤ e.inner e.endAddr)
    {f : MapEntry E O} (hf : f.start < e.inner e.endAddr) (hf' : e.offset < f.endAddr) :
    max f.start e.offset - e.offset + e.start ≤ x ∧
        x < min f.endAddr (e.inner e.endAddr) - e.offset + e.start ↔
      (e.start ≤ x ∧ x < e.endAddr) ∧ f.start ≤ e.inner x ∧ e.inner x < f.endAddr := by
  have hlower := outer_val hne hspan (le_max_right f.start e.offset) (max_le hf.le hspan)
  have hupper := outer_val hne hspan (le_min hf'.le hspan) (min_le_right f.endAddr _)
  have hmax : (max f.start e.offset).val = max f.start.val e.offset.val :=
    (Fin.val_strictMono.monotone).map_max
  have hmin : (min f.endAddr (e.inner e.endAddr)).val =
      min f.endAddr.val (e.inner e.endAddr).val := (Fin.val_strictMono.monotone).map_min
  have hend := inner_end_val hne hspan
  have hne' : e.start.val < e.endAddr.val := hne
  have hfirst : f.start.val < (e.inner e.endAddr).val := hf
  have hlast : e.offset.val < f.endAddr.val := hf'
  rw [Fin.le_def, Fin.lt_def, hlower, hupper, hmax, hmin]
  constructor
  · rintro ⟨hlo, hhi⟩
    have hstart : e.start ≤ x := by
      rw [Fin.le_def]
      omega
    have hbelow : x < e.endAddr := by
      rw [Fin.lt_def]
      omega
    have hx := inner_val hspan hstart hbelow
    refine ⟨⟨hstart, hbelow⟩, ?_, ?_⟩
    · rw [Fin.le_def, hx]
      omega
    · rw [Fin.lt_def, hx]
      omega
  · rintro ⟨⟨hstart, hbelow⟩, hlo, hhi⟩
    have hx := inner_val hspan hstart hbelow
    rw [Fin.le_def, hx] at hlo
    rw [Fin.lt_def, hx] at hhi
    rw [Fin.le_def] at hstart
    rw [Fin.lt_def] at hbelow
    constructor
    · omega
    · omega

end Inner

/-- Apart from hints, the maps but one are as before. -/
def SameBut (m : M) (maps maps' : Maps E O M) : Prop :=
  ∀ n, n ≠ m → maps' n = maps n ∨ ∃ share hint, maps n = some share ∧
    maps' n = some { share with hint } ∧ VmMap.Live share.entries hint

namespace SameBut

variable {m : M} {maps maps' maps'' : Maps E O M}

theorem refl (maps : Maps E O M) : SameBut m maps maps := fun _ _ ↦ .inl rfl

theorem trans (h : SameBut m maps maps') (h' : SameBut m maps' maps'') : SameBut m maps maps'' := by
  intro n hn
  rcases h' n hn with heq | ⟨share, hint, hshare, hafter, hlive⟩
  · rw [heq]
    exact h n hn
  · rcases h n hn with heq | ⟨share', hint', hshare', hafter', hlive'⟩
    · exact .inr ⟨share, hint, heq ▸ hshare, hafter, hlive⟩
    · obtain rfl : { share' with hint := hint' } = share :=
        Option.some.inj (hafter'.symm.trans hshare)
      exact .inr ⟨share', hint, hshare', hafter, hlive⟩

/-- The entries of the other maps are the same. -/
theorem entries_eq (h : SameBut m maps maps') {n : M} (hn : n ≠ m) :
    (maps' n).map (·.entries) = (maps n).map (·.entries) := by
  rcases h n hn with heq | ⟨share, hint, hshare, hafter, -⟩
  · rw [heq]
  · rw [hshare, hafter]
    rfl

theorem putMap [DecidableEq M] (maps : Maps E O M) (m : M) (map : VmMap E (Ref O M)) :
    SameBut m maps (putMap maps m map) := fun _ hn ↦ .inl (if_neg hn)

theorem cowThrough_iff (h : SameBut m maps maps') {s : Seen (Ref O M)}
    (hs : ∀ n, s.object = some (.map n) → n ≠ m) : CowThrough maps' s ↔ CowThrough maps s := by
  have hsub : ∀ {maps maps' : Maps E O M}, (∀ n, n ≠ m →
      (maps' n).map (·.entries) = (maps n).map (·.entries)) → CowThrough maps s →
        CowThrough maps' s := by
    rintro maps maps' hsame ⟨n, share, t, hobject, hn, hsee, hcow⟩
    have hentries := hsame n (hs n hobject)
    rw [hn, Option.map_some, Option.map_eq_some_iff] at hentries
    obtain ⟨share', hshare', heq⟩ := hentries
    exact ⟨n, share', t, hobject, hshare', heq ▸ hsee, hcow⟩
  exact ⟨hsub fun n hn ↦ (h.entries_eq hn).symm, hsub fun n hn ↦ h.entries_eq hn⟩

theorem shares (h : SameBut m maps maps') {e : MapEntry E (Ref O M)} (hshares : Shares maps m e) :
    Shares maps' m e := by
  intro hmap
  obtain ⟨n, share, hne, hobject, hshare, hwell, hspan, hsee⟩ := hshares hmap
  rcases h n hne with heq | ⟨share', hint, hshare', hafter, hlive⟩
  · exact ⟨n, share, hne, hobject, heq.trans hshare, hwell, hspan, hsee⟩
  · obtain rfl : share = share' := Option.some.inj (hshare.symm.trans hshare')
    exact ⟨n, _, hne, hobject, hafter, ⟨hwell.inOrder, hwell.inside, hwell.nodup, hwell.nentries_eq,
      hlive, hwell.firstFree_live⟩, hspan, hsee⟩

end SameBut

namespace Space

variable [DecidableEq E] [LinearOrder M] {w : World E O M} {m n : M}
  {map share : VmMap E (Ref O M)} {l₁ l₂ : List (MapEntry E (Ref O M))}

/-- What is protected for an entry of a share map. -/
def sharedCall (m : M) (current : MapEntry E (Ref O M)) (shareEnd : VmOffset) (prot : ℕ)
    (f : MapEntry E (Ref O M)) : PmapProtect M where
  map := m
  start := max f.start current.offset - current.offset + current.start
  endAddr := min f.endAddr shareEnd - current.offset + current.start
  prot := maskProt f prot

omit [LinearOrder M] in
/-- The walk over a share map protects what its entries have of the range. -/
theorem ensures_protectShared (hn : w.maps n = some share) (hshare : share.Wellformed)
    (hl : share.entries = l₁ ++ l₂) (current : MapEntry E (Ref O M)) (shareEnd : VmOffset)
    (prot turns : ℕ) :
    Ensures (protectShared m current n shareEnd prot turns (firstId l₂))
      (fun _ w' ↦ w' = { w with protects := w.protects ++
        (l₂.takeWhile (·.start < shareEnd)).map (sharedCall m current shareEnd prot) }) w := by
  induction turns generalizing w l₁ l₂ with
  | zero =>
    unfold protectShared
    exact Ensures.throw_iff.2 trivial
  | succ turns ih =>
    cases l₂ with
    | nil => exact Ensures.pure_iff.2 (by simp)
    | cons f rest =>
      have hentry := VmMap.entry_split hl hshare.nodup
      refine Ensures.bind (ensures_entryOf n f.id w) fun current₁ w₁ hcurrent ↦ ?_
      obtain ⟨⟨share₁, hn₁, hcurrent⟩, rfl⟩ := hcurrent
      obtain rfl : share = share₁ := Option.some.inj (hn.symm.trans hn₁)
      obtain rfl : f = current₁ := Except.ok.inj (hentry.symm.trans hcurrent)
      refine Ensures.ite_iff.2 ⟨fun hlt ↦ ?_, fun hge ↦ ?_⟩
      · have htake : (f :: rest).takeWhile (·.start < shareEnd) =
            f :: rest.takeWhile (·.start < shareEnd) :=
          List.takeWhile_cons_of_pos (decide_eq_true hlt)
        have hassoc : share.entries = (l₁ ++ [f]) ++ rest := by simpa using hl
        rw [htake, List.map_cons]
        refine Ensures.bind_iff.2 (Ensures.modify_iff.2 ?_)
        have hcalled : ({ w₁ with protects := w₁.protects ++
            [sharedCall m current shareEnd prot f] } : World E O M).maps n = some share := hn
        refine Ensures.bind (ensures_nextOf hcalled (some f.id)) fun next w₂ hnext ↦ ?_
        obtain ⟨rfl, rfl⟩ := hnext
        rw [VmMap.next_split hl hshare.nodup]
        refine (ih hcalled hassoc).mono fun _ w₃ hw₃ ↦ ?_
        rw [hw₃, List.append_assoc]
        rfl
      · have htake : (f :: rest).takeWhile (·.start < shareEnd) = [] :=
          List.takeWhile_cons_of_neg (by simpa using hge)
        rw [htake]
        exact Ensures.pure_iff.2 (by simp)

theorem mem_takeWhile_iff {α : Type} {p : α → Bool} {l : List α}
    (hp : l.Pairwise fun a b ↦ p b → p a) {a : α} : a ∈ l.takeWhile p ↔ a ∈ l ∧ p a := by
  induction l with
  | nil => simp
  | cons b l ih =>
    obtain ⟨hb, hl⟩ := List.pairwise_cons.1 hp
    by_cases hpb : p b
    · rw [List.takeWhile_cons_of_pos hpb, List.mem_cons, List.mem_cons, ih hl]
      exact ⟨fun h ↦ h.elim (fun heq ↦ ⟨.inl heq, heq ▸ hpb⟩) fun h ↦ ⟨.inr h.1, h.2⟩,
        fun h ↦ h.1.imp id fun hmem ↦ ⟨hmem, h.2⟩⟩
    · rw [List.takeWhile_cons_of_neg hpb]
      refine iff_of_false (by simp) fun h ↦ ?_
      rcases List.mem_cons.1 h.1 with rfl | hmem
      · exact hpb h.2
      · exact hpb (hb a hmem h.2)

omit [DecidableEq E] [LinearOrder M] in
/-- The walk takes the write permission of the range, where an entry that is copied on write maps it
or where the protection does not have it. -/
theorem revokedBy_shared (hshare : share.Wellformed) {e f : MapEntry E (Ref O M)}
    (hl : share.entries = l₁ ++ f :: l₂) (hlo : f.start ≤ e.offset) (hhi : e.offset < f.endAddr)
    (hne : e.start < e.endAddr) (hspan : e.offset ≤ e.inner e.endAddr)
    (hsee : ∀ y, e.offset ≤ y → y < e.inner e.endAddr → see share.entries y ≠ none)
    (prot : ℕ) (x : VmOffset) :
    RevokedBy (((f :: l₂).takeWhile (·.start < e.inner e.endAddr)).map
        (sharedCall m e (e.inner e.endAddr) prot)) m x ↔
      (e.start ≤ x ∧ x < e.endAddr) ∧
        (¬ Writes prot ∨ ∃ t, see share.entries (e.inner x) = some t ∧ t.copyOnWrite) := by
  have hinOrder := hshare.inOrder
  rw [hl] at hinOrder
  obtain ⟨-, hrest, hbelow⟩ := Ranges.ordered_append.1 hinOrder
  have habove : ∀ g ∈ f :: l₂, e.offset < g.endAddr := by
    intro g hg
    rcases List.mem_cons.1 hg with rfl | hg
    · exact hhi
    · exact hhi.trans_le (((Ranges.ordered_cons.1 hrest).2.1 g hg).trans
        (hrest.nonempty g (List.mem_cons_of_mem _ hg)).le)
  have hordered : (f :: l₂).Pairwise fun g g' ↦ decide (g'.start < e.inner e.endAddr) →
      decide (g.start < e.inner e.endAddr) := by
    refine hrest.pairwise.imp_of_mem fun {g g'} hg _ hle hg' ↦ decide_eq_true ?_
    exact ((hrest.nonempty g hg).trans_le hle).trans (of_decide_eq_true hg')
  unfold RevokedBy
  constructor
  · rintro ⟨c, hc, -, hstart, hend, hwrites⟩
    obtain ⟨g, hg, rfl⟩ := List.mem_map.1 hc
    obtain ⟨hmem, hgstart⟩ := (mem_takeWhile_iff hordered).1 hg
    obtain ⟨hx, hglo, hghi⟩ := (mem_outer_iff hne hspan (of_decide_eq_true hgstart)
      (habove g hmem)).1 ⟨hstart, hend⟩
    refine ⟨hx, (not_writes_maskProt.1 hwrites).imp id fun hcow ↦ ⟨g.seen (e.inner x), ?_, hcow⟩⟩
    exact hshare.inOrder.piecewise_eq_some.2 ⟨g, hl ▸ List.mem_append_right _ hmem, hglo, hghi, rfl⟩
  · rintro ⟨hx, hrevoked⟩
    obtain ⟨hylo, hyhi⟩ := inner_mem hspan hx.1 hx.2
    obtain ⟨t, ht⟩ := Option.ne_none_iff_exists'.1 (hsee _ hylo hyhi)
    obtain ⟨g, hg, hglo, hghi, rfl⟩ := hshare.inOrder.piecewise_eq_some.1 ht
    have hmem : g ∈ f :: l₂ := by
      rw [hl] at hg
      refine (List.mem_append.1 hg).resolve_left fun hg ↦ absurd hghi (not_lt.2 ?_)
      exact (hbelow g hg f (List.mem_cons_self ..)).trans (hlo.trans hylo)
    have hgstart : g.start < e.inner e.endAddr := hglo.trans_lt hyhi
    obtain ⟨hstart, hend⟩ := (mem_outer_iff hne hspan hgstart (habove g hmem)).2 ⟨hx, hglo, hghi⟩
    refine ⟨_, List.mem_map_of_mem ((mem_takeWhile_iff hordered).2
      ⟨hmem, decide_eq_true hgstart⟩), rfl, hstart, hend,
      not_writes_maskProt.2 (hrevoked.imp id ?_)⟩
    rintro ⟨t, ht', hcow⟩
    obtain rfl : g.seen (e.inner x) = t := Option.some.inj (ht.symm.trans ht')
    exact hcow

/-- The translations that `vmspace_protect` takes the write permission from, for one entry; `cow` is
whether the first entry of the region is copied on write. -/
theorem ensures_protectPages (hm : w.maps m = some map) {e : MapEntry E (Ref O M)}
    (hne : e.start < e.endAddr) (hshares : Shares w.maps m e) {first : E} {cow : Bool}
    (hfirst : ∀ f, map.entry first = .ok f → f.copyOnWrite = cow) (prot : ℕ) :
    Ensures (protectPages m first e prot) (fun _ w' ↦ ∃ calls,
      w'.protects = w.protects ++ calls ∧ w'.maps m = w.maps m ∧ SameBut m w.maps w'.maps ∧
        ∀ x, RevokedBy calls m x ↔ (e.start ≤ x ∧ x < e.endAddr) ∧
          (¬ Writes prot ∨ if e.isAMap then CowThrough w.maps (e.seen x) else cow)) w := by
  refine Ensures.ite_iff.2 ⟨fun hamap ↦ ?_, fun hamap ↦ ?_⟩
  · obtain ⟨n, share, hnm, hobject, hn, hshare, hspan, hsee⟩ := hshares hamap
    refine Ensures.bind (ensures_innerMap e w) fun n' w₁ hinner ↦ ?_
    obtain ⟨hobject', rfl⟩ := hinner
    obtain rfl : n = n' := by
      rw [hobject] at hobject'
      cases hobject'
      rfl
    refine Ensures.bind (ensures_onHold n _ w₁) fun _ w₂ hlock ↦ ?_
    obtain ⟨hold, -, rfl⟩ := hlock
    refine Ensures.bind (ensures_onMap n _ _) fun found w₃ hlookup ↦ ?_
    obtain ⟨share₁, share', hn₁, hok, rfl⟩ := hlookup
    obtain rfl : share = share₁ := Option.some.inj (hn.symm.trans hn₁)
    have hmapped := hsee e.offset le_rfl
      ((inner_mem hspan le_rfl hne).1.trans_lt (inner_mem hspan le_rfl hne).2)
    rcases hshare.lookup e.offset with
      ⟨l₁, f, l₂, hint, hl, hlo, hhi, hlook, hlive⟩ | ⟨l₁, l₂, hl, hbelow, habove, -⟩
    · obtain ⟨⟨found', entry, share₂⟩, hlook', hok⟩ := exists_of_bind_ok hok
      rw [hlook] at hlook'
      cases hlook'
      cases hok
      have hwell : VmMap.Wellformed { share with hint } :=
        ⟨hshare.inOrder, hshare.inside, hshare.nodup, hshare.nentries_eq, hlive,
          hshare.firstFree_live⟩
      have hcow : ∀ x, CowThrough w₁.maps (e.seen x) ↔
          ∃ t, see share.entries (e.inner x) = some t ∧ t.copyOnWrite := by
        intro x
        constructor
        · rintro ⟨n', share', t, hobject', hn', ht, hcow⟩
          rw [show (e.seen x).object = some (.map n) from hobject] at hobject'
          cases hobject'
          obtain rfl : share = share' := Option.some.inj (hn.symm.trans hn')
          exact ⟨t, ht, hcow⟩
        · rintro ⟨t, ht, hcow⟩
          exact ⟨n, share, t, hobject, hn, ht, hcow⟩
      refine Ensures.bind (ensures_turnsOf (if_pos rfl)) fun turns w₄ hturns ↦ ?_
      obtain ⟨-, rfl⟩ := hturns
      refine Ensures.bind (ensures_protectShared (if_pos rfl) hwell hl e _ prot turns)
        fun _ w₅ hprotect ↦ ?_
      subst hprotect
      refine (ensures_onHold n _ _).mono fun _ w₆ hunlock ↦ ?_
      obtain ⟨hold', -, rfl⟩ := hunlock
      refine ⟨_, rfl, if_neg hnm.symm, fun k hk ↦ ?_, fun x ↦ ?_⟩
      · by_cases hkn : k = n
        · exact .inr ⟨share, hint, hkn ▸ hn, if_pos hkn, hlive⟩
        · exact .inl (if_neg hkn)
      · rw [if_pos hamap, hcow x]
        exact revokedBy_shared hshare hl hlo hhi hne hspan hsee prot x
    · refine absurd ?_ hmapped
      rw [hl, see, Ranges.piecewise_append, Ranges.piecewise_of_le hbelow,
        Ranges.piecewise_of_lt habove]
      rfl
  · refine Ensures.bind (ensures_entryOf m first w) fun f w₁ hentry ↦ ?_
    obtain ⟨⟨map₁, hm₁, hentry⟩, rfl⟩ := hentry
    obtain rfl : map = map₁ := Option.some.inj (hm.symm.trans hm₁)
    refine Ensures.modify_iff.2 ⟨_, rfl, rfl, .refl _, fun x ↦ ?_⟩
    rw [if_neg hamap, ← hfirst f hentry]
    unfold RevokedBy
    rw [← not_writes_maskProt]
    constructor
    · rintro ⟨c, hc, -, hlo, hhi, hwrites⟩
      rw [List.mem_singleton.1 hc] at hlo hhi hwrites
      exact ⟨⟨hlo, hhi⟩, hwrites⟩
    · rintro ⟨⟨hlo, hhi⟩, hwrites⟩
      exact ⟨_, List.mem_singleton_self _, rfl, hlo, hhi, hwrites⟩

end Space

end Bsd386.Kern.Vm
