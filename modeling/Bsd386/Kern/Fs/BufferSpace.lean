import Bsd386.Kern.Fs.Bio
import Bsd386.Lib.Machine
import Mathlib.Algebra.BigOperators.Group.Finset.Basic
import Mathlib.Algebra.BigOperators.Group.Finset.Piecewise
import Mathlib.Algebra.Order.Ring.Int
import Mathlib.Data.Fintype.Basic
import Mathlib.Tactic.Ring

/-!
# The space of the buffers

What is free and what is allocated is the space set aside at startup, and what is allocated is the
memory of the buffers. There is a check that what is free is enough for a new buffer, but none when
a buffer gets memory of another size.
-/

namespace Bsd386.Kern.Fs

open Function

variable {B V : Type} [DecidableEq B]

/-- The memory that a buffer holds. -/
def Buf.charge (b : Buf V) : ℤ := if b.addr then b.bufsize else 0

namespace Bio

variable {total sz size : ℤ} {c : Bio B V} {bp : B} {f : Buf V → Buf V}

/-! ## What the functions leave alone -/

omit [DecidableEq B] in
theorem freebufspace_enqueue (b : Buf V) : (c.enqueue bp b).freebufspace = c.freebufspace := by
  unfold enqueue
  split_ifs <;> rfl

theorem freebufspace_brelse : (c.brelse bp).freebufspace = c.freebufspace := freebufspace_enqueue _

theorem freebufspace_bawrite : (c.bawrite bp).freebufspace = c.freebufspace := by
  unfold bawrite
  split_ifs
  · exact freebufspace_brelse
  · rfl

theorem freebufspace_bdwrite : (c.bdwrite bp).freebufspace = c.freebufspace := by
  unfold bdwrite
  split_ifs
  · exact freebufspace_brelse
  · exact freebufspace_brelse

theorem empty_resize : (c.resize bp size).empty = c.empty := by
  unfold resize
  split_ifs <;> rfl

theorem bufsize_resize : ((c.resize bp size).buf bp).bufsize = size := by
  unfold resize
  split_ifs with hsize
  · change (update c.buf bp { c.buf bp with addr := true, bufsize := size } bp).bufsize = size
    rw [update_self]
  · exact not_not.mp hsize

/-- A size that is right costs nothing. -/
theorem freebufspace_resize :
    (c.resize bp size).freebufspace = c.freebufspace - (size - (c.buf bp).bufsize) := by
  unfold resize
  split_ifs with hsize
  · rfl
  · rw [not_not.mp hsize, sub_self, sub_zero]

theorem empty_fillin : (c.fillin bp sz).empty = c.empty := empty_resize

theorem freebufspace_fillin :
    (c.fillin bp sz).freebufspace = c.freebufspace - (sz - (c.buf bp).bufsize) := by
  refine freebufspace_resize.trans ?_
  change c.freebufspace -
    (sz - (update c.buf bp { c.buf bp with vp := none, lblkno := 0 } bp).bufsize) = _
  rw [update_self]

variable [Fintype B]

/-- The headers on `BQ_EMPTY` are those without memory, nobody holds them, and they are nowhere
else; and the counters agree with the memory of the buffers. -/
structure Sound (total : ℤ) (c : Bio B V) : Prop where
  total : c.freebufspace + c.allocbufspace = total
  alloc : c.allocbufspace = ∑ bp, (c.buf bp).charge
  nodup : c.empty.Nodup
  owns : ∀ bp, (c.buf bp).addr = true ↔ bp ∉ c.empty
  idle : ∀ bp ∈ c.empty, (c.buf bp).busy = false
  age : ∀ bp ∈ c.age, bp ∉ c.empty
  lru : ∀ bp ∈ c.lru, bp ∉ c.empty
  chain : ∀ h, ∀ bp ∈ c.chain h, bp ∉ c.empty

/-! ## What the functions do to the space -/

theorem sum_charge_update (buf : B → Buf V) (bp : B) (b : Buf V) :
    ∑ x, (update buf bp b x).charge = ∑ x, (buf x).charge + (b.charge - (buf bp).charge) := by
  have hcomp : ∀ x, (update buf bp b x).charge =
      update (fun x ↦ (buf x).charge) bp b.charge x := by
    intro x
    by_cases hx : x = bp
    · rw [hx, update_self, update_self]
    · rw [update_of_ne hx, update_of_ne hx]
  rw [Finset.sum_congr rfl fun x _ ↦ hcomp x, Finset.sum_update_of_mem (Finset.mem_univ bp),
    ← Finset.sum_sdiff (Finset.subset_univ {bp}), Finset.sum_singleton]
  ring

theorem Sound.modify (h : c.Sound total) (hbp : bp ∉ c.empty)
    (haddr : (f (c.buf bp)).addr = (c.buf bp).addr)
    (hsize : (f (c.buf bp)).bufsize = (c.buf bp).bufsize) : (c.modify bp f).Sound total where
  total := h.total
  alloc := by
    change c.allocbufspace = ∑ x, (update c.buf bp (f (c.buf bp)) x).charge
    have hcharge : (f (c.buf bp)).charge = (c.buf bp).charge := by
      rw [Buf.charge, Buf.charge, haddr, hsize]
    rw [sum_charge_update, hcharge, sub_self, add_zero]
    exact h.alloc
  nodup := h.nodup
  owns x := by
    refine Iff.trans ?_ (h.owns x)
    change (update c.buf bp (f (c.buf bp)) x).addr = true ↔ _
    by_cases hx : x = bp
    · rw [hx, update_self, haddr]
    · rw [update_of_ne hx]
  idle x hx := by
    change (update c.buf bp (f (c.buf bp)) x).busy = false
    rw [update_of_ne (ne_of_mem_of_not_mem hx hbp)]
    exact h.idle x hx
  age := h.age
  lru := h.lru
  chain := h.chain

theorem Sound.bremfree (h : c.Sound total) (hbp : bp ∉ c.empty) : (c.bremfree bp).Sound total where
  total := h.total
  alloc := h.alloc
  nodup := h.nodup.erase bp
  owns x := by
    change _ ↔ x ∉ c.empty.erase bp
    rw [List.erase_of_not_mem hbp]
    exact h.owns x
  idle x hx := h.idle x (List.mem_of_mem_erase hx)
  age x hx hempty := h.age x (List.mem_of_mem_erase hx) (List.mem_of_mem_erase hempty)
  lru x hx hempty := h.lru x (List.mem_of_mem_erase hx) (List.mem_of_mem_erase hempty)
  chain i x hx hempty := h.chain i x hx (List.mem_of_mem_erase hempty)

theorem Sound.bremhash (h : c.Sound total) (bp : B) : (c.bremhash bp).Sound total :=
  { h with chain := fun i x hx ↦ h.chain i x (List.mem_of_mem_erase hx) }

omit [DecidableEq B] in
theorem Sound.binshash (h : c.Sound total) (hbp : bp ∉ c.empty) (i : ℕ) :
    (c.binshash bp i).Sound total :=
  { h with
    chain := fun j x hx ↦ by
      change x ∈ update c.chain i (bp :: c.chain i) j at hx
      by_cases hj : j = i
      · rw [hj, update_self] at hx
        rcases List.mem_cons.mp hx with rfl | hx
        · exact hbp
        · exact h.chain i x hx
      · rw [update_of_ne hj] at hx
        exact h.chain j x hx }

/-- Memory of another size is charged with the difference. -/
theorem Sound.allocbuf (h : c.Sound total) (hbp : bp ∉ c.empty) (size : ℤ) :
    (c.allocbuf bp size).Sound total where
  total := by
    change c.freebufspace - _ + (c.allocbufspace + _) = total
    rw [← h.total]
    ring
  alloc := by
    change c.allocbufspace + (size - (c.buf bp).bufsize) =
      ∑ x, (update c.buf bp { c.buf bp with addr := true, bufsize := size } x).charge
    have hold : (c.buf bp).charge = (c.buf bp).bufsize := if_pos ((h.owns bp).mpr hbp)
    rw [sum_charge_update, hold, h.alloc]
    rfl
  nodup := h.nodup
  owns x := by
    refine Iff.trans ?_ (h.owns x)
    change (update c.buf bp { c.buf bp with addr := true, bufsize := size } x).addr = true ↔ _
    by_cases hx : x = bp
    · rw [hx, update_self]
      exact iff_of_true rfl ((h.owns bp).mpr hbp)
    · rw [update_of_ne hx]
  idle x hx := by
    change (update c.buf bp { c.buf bp with addr := true, bufsize := size } x).busy = false
    rw [update_of_ne (ne_of_mem_of_not_mem hx hbp)]
    exact h.idle x hx
  age := h.age
  lru := h.lru
  chain := h.chain

omit [DecidableEq B] in
theorem Sound.enqueue (h : c.Sound total) (hbp : bp ∉ c.empty) (b : Buf V) :
    (c.enqueue bp b).Sound total := by
  unfold Bio.enqueue
  split_ifs
  · exact { h with age := List.forall_mem_cons.mpr ⟨hbp, h.age⟩ }
  · exact { h with age := List.forall_mem_append.mpr ⟨h.age, List.forall_mem_singleton.mpr hbp⟩ }
  · exact { h with lru := List.forall_mem_append.mpr ⟨h.lru, List.forall_mem_singleton.mpr hbp⟩ }

theorem Sound.brelse (h : c.Sound total) (hbp : bp ∉ c.empty) : (c.brelse bp).Sound total :=
  (h.modify hbp rfl rfl).enqueue hbp _

theorem Sound.bawrite (h : c.Sound total) (hbp : bp ∉ c.empty) : (c.bawrite bp).Sound total := by
  unfold Bio.bawrite
  split_ifs
  · exact h.brelse hbp
  · exact h.modify hbp rfl rfl

theorem Sound.bdwrite (h : c.Sound total) (hbp : bp ∉ c.empty) : (c.bdwrite bp).Sound total := by
  unfold Bio.bdwrite
  split_ifs
  · exact h.brelse hbp
  · exact (h.modify hbp rfl rfl).brelse hbp

theorem Sound.resize (h : c.Sound total) (hbp : bp ∉ c.empty) (size : ℤ) :
    (c.resize bp size).Sound total := by
  unfold Bio.resize
  split_ifs
  · exact h.allocbuf hbp size
  · exact h

theorem Sound.fillin (h : c.Sound total) (hbp : bp ∉ c.empty) (sz : ℤ) :
    (c.fillin bp sz).Sound total := by
  have hresize := ((h.bremhash bp).modify
    (f := fun b ↦ { b with vp := none, lblkno := 0 }) hbp rfl rfl).resize hbp sz
  refine hresize.modify (f := fun b ↦ { b with bufsize := sz }) ?_ rfl bufsize_resize.symm
  rw [empty_resize]
  exact hbp

/-! ## New buffers -/

variable {malloc : Bool}

omit [DecidableEq B] [Fintype B] in
theorem fresh_eq_some (h : c.fresh malloc sz = some bp) :
    sz < c.freebufspace ∧ ∃ rest, c.empty = bp :: rest := by
  unfold fresh at h
  split_ifs at h with hspace
  exact ⟨hspace.1, List.head?_eq_some_iff.mp h⟩

theorem Sound.constitute {rest : List B} (h : c.Sound total) (hempty : c.empty = bp :: rest)
    (sz : ℤ) : (c.constitute bp sz).Sound total := by
  have hnodup := h.nodup
  rw [hempty] at hnodup
  obtain ⟨hnot, hrest⟩ := List.nodup_cons.mp hnodup
  have hmem : bp ∈ c.empty := hempty ▸ List.mem_cons_self
  have herase : (c.constitute bp sz).empty = rest := by
    change c.empty.erase bp = rest
    rw [hempty, List.erase_cons_head]
  have helse : ∀ x, x ∉ c.empty → x ∉ rest := fun x hx hmem' ↦
    hx (hempty ▸ List.mem_cons_of_mem bp hmem')
  refine ⟨?_, ?_, ?_, fun x ↦ ?_, fun x hx ↦ ?_, fun x hx ↦ ?_, fun x hx ↦ ?_, fun i x hx ↦ ?_⟩
  · change c.freebufspace - sz + (c.allocbufspace + sz) = total
    rw [← h.total]
    ring
  · change c.allocbufspace + sz = ∑ x, (update c.buf bp
      { (c.buf bp).assign true true with addr := true, bufsize := sz } x).charge
    have hold : (c.buf bp).charge = 0 := if_neg fun haddr ↦ (h.owns bp).mp haddr hmem
    rw [sum_charge_update, hold, sub_zero, h.alloc]
    rfl
  · rw [herase]
    exact hrest
  · rw [herase]
    change (update c.buf bp
      { (c.buf bp).assign true true with addr := true, bufsize := sz } x).addr = true ↔ _
    by_cases hx : x = bp
    · rw [hx, update_self]
      exact iff_of_true rfl hnot
    · rw [update_of_ne hx, h.owns x, hempty, List.mem_cons, not_or]
      exact and_iff_right hx
  · rw [herase] at hx
    change (update c.buf bp
      { (c.buf bp).assign true true with addr := true, bufsize := sz } x).busy = false
    rw [update_of_ne (ne_of_mem_of_not_mem hx hnot)]
    exact h.idle x (hempty ▸ List.mem_cons_of_mem bp hx)
  · rw [herase]
    exact helse x (h.age x (List.mem_of_mem_erase hx))
  · rw [herase]
    exact helse x (h.lru x (List.mem_of_mem_erase hx))
  · rw [herase]
    exact helse x (h.chain i x hx)

/-- The buffer that `getnewbuf` recycles. -/
def reused (c : Bio B V) (malloc : Bool) (sz : ℤ) : Option B :=
  match c.fresh malloc sz with
  | some _ => none
  | none => c.tryfree.filter fun bp ↦ !(c.buf bp).delwri

/-- What a call has cost: the difference of the sizes if it has resized a buffer, and otherwise no
more than there was. -/
def Charged (c c' : Bio B V) : Option (B × ℤ) → Prop
  | none => 0 ≤ c.freebufspace → 0 ≤ c'.freebufspace
  | some r => c'.freebufspace = c.freebufspace - (r.2 - (c.buf r.1).bufsize)

omit [DecidableEq B] in
theorem tryfree_notMem (h : c.Sound total) (hbp : c.tryfree = some bp) : bp ∉ c.empty := by
  rcases Option.or_eq_some_iff.mp hbp with hage | ⟨-, hlru⟩
  · exact h.age bp (List.mem_of_head? hage)
  · exact h.lru bp (List.mem_of_head? hlru)

theorem Sound.getnewbuf (h : c.Sound total) (malloc : Bool) (sz : ℤ) :
    (c.getnewbuf malloc sz).2.Sound total ∧
      (∀ bp, (c.getnewbuf malloc sz).1 = some bp → bp ∉ (c.getnewbuf malloc sz).2.empty) ∧
      Charged c (c.getnewbuf malloc sz).2 ((c.reused malloc sz).map (·, sz)) := by
  unfold Bio.getnewbuf reused
  rcases hfresh : c.fresh malloc sz with _ | bp
  · rcases htry : c.tryfree with _ | bp
    · exact ⟨h, fun bp hbp ↦ (by cases hbp), fun hfree ↦ hfree⟩
    · have hbp := tryfree_notMem h htry
      have herase : bp ∉ (c.bremfree bp).empty := fun hmem ↦ hbp (List.mem_of_mem_erase hmem)
      dsimp only
      by_cases hdelwri : (c.buf bp).delwri = true
      · have hnone : (some bp).filter (fun bp ↦ !(c.buf bp).delwri) = none :=
          Option.filter_eq_none_iff.mpr fun x hx ↦ by
            cases hx
            exact fun h' ↦ absurd hdelwri (by simpa using h')
        rw [if_pos (show ((c.bremfree bp).buf bp).delwri = true from hdelwri), hnone]
        refine ⟨((h.bremfree hbp).modify herase rfl rfl).bawrite herase,
          fun bp hbp ↦ (by cases hbp),
          fun hfree ↦ ?_⟩
        rw [freebufspace_bawrite]
        exact hfree
      · have hsome : (some bp).filter (fun bp ↦ !(c.buf bp).delwri) = some bp :=
          Option.filter_eq_some_iff.mpr ⟨rfl, by simpa using hdelwri⟩
        rw [if_neg (show ¬((c.bremfree bp).buf bp).delwri = true from hdelwri), hsome]
        refine ⟨((h.bremfree hbp).modify herase rfl rfl).fillin herase sz, fun bp' hbp' ↦ ?_, ?_⟩
        · cases hbp'
          rw [empty_fillin]
          exact herase
        · refine freebufspace_fillin.trans ?_
          change c.freebufspace - (sz - (update c.buf bp ((c.buf bp).assign true true)
            bp).bufsize) = _
          rw [update_self]
          rfl
  · obtain ⟨hspace, rest, hempty⟩ := fresh_eq_some hfresh
    have hnodup := h.nodup
    rw [hempty] at hnodup
    have hnot : bp ∉ (c.constitute bp sz).empty := by
      change bp ∉ c.empty.erase bp
      rw [hempty, List.erase_cons_head]
      exact (List.nodup_cons.mp hnodup).1
    refine ⟨(h.constitute hempty sz).fillin hnot sz, fun bp' hbp' ↦ ?_, fun _ ↦ ?_⟩
    · cases hbp'
      rw [empty_fillin]
      exact hnot
    · rw [freebufspace_fillin]
      change 0 ≤ c.freebufspace - sz - (sz - (update c.buf bp
        { (c.buf bp).assign true true with addr := true, bufsize := sz } bp).bufsize)
      rw [update_self]
      change 0 ≤ c.freebufspace - sz - (sz - sz)
      omega

/-! ## Calls -/

variable [DecidableEq V] {hash : V → ℤ → ℕ}

/-- The buffer that a call gives memory of another size, and the size. -/
def resized (hash : V → ℤ → ℕ) (c : Bio B V) : BioCall B V → Option (B × ℤ)
  | .getblk malloc vp blkno size =>
    match c.incore hash vp blkno with
    | some bp => if (c.buf bp).busy then none else some (bp, size)
    | none => (c.reused malloc size).map (·, size)
  | .geteblk malloc size => (c.reused malloc size).map (·, size)
  | .allocbuf bp size => some (bp, size)
  | .brelse _ => none
  | .bawrite _ => none
  | .bdwrite _ => none

omit [DecidableEq B] in
theorem incore_notMem {vp : V} {blkno : ℤ} (h : c.Sound total)
    (hbp : c.incore hash vp blkno = some bp) : bp ∉ c.empty :=
  h.chain _ bp (List.mem_of_find?_eq_some hbp)

theorem Sound.getblk (h : c.Sound total) (hash : V → ℤ → ℕ) (malloc : Bool) (vp : V)
    (blkno size : ℤ) :
    (c.getblk hash malloc vp blkno size).2.Sound total ∧
      Charged c (c.getblk hash malloc vp blkno size).2
        (c.resized hash (.getblk malloc vp blkno size)) := by
  unfold Bio.getblk resized
  rcases Option.eq_none_or_eq_some (c.incore hash vp blkno) with hincore | ⟨bp, hincore⟩
  · obtain ⟨hsound, hmem, hcharged⟩ := h.getnewbuf malloc size
    simp only [hincore]
    rcases Option.eq_none_or_eq_some (c.getnewbuf malloc size).1 with hnew | ⟨bp, hnew⟩
    · simp only [hnew]
      exact ⟨hsound, hcharged⟩
    · simp only [hnew]
      have hbp := hmem bp hnew
      have hfound := hsound.modify (f := fun b ↦ { b with lblkno := blkno, vp := some vp }) hbp
        rfl rfl
      exact ⟨(hfound.binshash hbp _).modify (f := fun b ↦ b.assign true false) hbp rfl rfl,
        hcharged⟩
  · have hbp := incore_notMem h hincore
    simp only [hincore]
    by_cases hbusy : (c.buf bp).busy = true
    · rw [if_pos hbusy, if_pos hbusy]
      exact ⟨h.modify (f := fun b ↦ { b with age := false, cache := true }) hbp rfl rfl,
        fun hfree ↦ hfree⟩
    · rw [if_neg hbusy, if_neg hbusy]
      have hheld := h.modify (f := fun b ↦ { b with age := false, busy := true, cache := true }) hbp
        rfl rfl
      refine ⟨(hheld.bremfree hbp).resize (fun hmem ↦ hbp (List.mem_of_mem_erase hmem)) size, ?_⟩
      refine freebufspace_resize.trans ?_
      change c.freebufspace - (size - (update c.buf bp
        { c.buf bp with age := false, busy := true, cache := true } bp).bufsize) = _
      rw [update_self]

/-- What is done with a buffer is done by who has got it. -/
def Held (c : Bio B V) : BioCall B V → Prop
  | .allocbuf bp _ => (c.buf bp).busy = true
  | .brelse bp => (c.buf bp).busy = true
  | .bawrite bp => (c.buf bp).busy = true
  | .bdwrite bp => (c.buf bp).busy = true
  | .getblk .. => True
  | .geteblk .. => True

omit [DecidableEq B] [DecidableEq V] in
theorem Sound.notMem_of_busy (h : c.Sound total) (hbusy : (c.buf bp).busy = true) :
    bp ∉ c.empty := by
  intro hmem
  rw [h.idle bp hmem] at hbusy
  cases hbusy

theorem Sound.step (h : c.Sound total) (hash : V → ℤ → ℕ) {call : BioCall B V}
    (hheld : c.Held call) :
    (bioStep hash c call).2.Sound total ∧
      Charged c (bioStep hash c call).2 (c.resized hash call) := by
  cases call with
  | getblk malloc vp blkno size => exact h.getblk hash malloc vp blkno size
  | geteblk malloc size =>
    obtain ⟨hsound, -, hcharged⟩ := h.getnewbuf malloc size
    exact ⟨hsound, hcharged⟩
  | allocbuf bp size => exact ⟨h.allocbuf (h.notMem_of_busy hheld) size, rfl⟩
  | brelse bp =>
    refine ⟨h.brelse (h.notMem_of_busy hheld), fun hfree ↦ ?_⟩
    change 0 ≤ (c.brelse bp).freebufspace
    rw [freebufspace_brelse]
    exact hfree
  | bawrite bp =>
    refine ⟨h.bawrite (h.notMem_of_busy hheld), fun hfree ↦ ?_⟩
    change 0 ≤ (c.bawrite bp).freebufspace
    rw [freebufspace_bawrite]
    exact hfree
  | bdwrite bp =>
    refine ⟨h.bdwrite (h.notMem_of_busy hheld), fun hfree ↦ ?_⟩
    change 0 ≤ (c.bdwrite bp).freebufspace
    rw [freebufspace_bdwrite]
    exact hfree

/-- A buffer that gets memory of another size grows by no more than what is free. -/
def Affords (hash : V → ℤ → ℕ) (c : Bio B V) (call : BioCall B V) : Prop :=
  ∀ bp size, c.resized hash call = some (bp, size) → size - (c.buf bp).bufsize ≤ c.freebufspace

omit [DecidableEq B] [Fintype B] in
theorem Charged.nonneg_iff {c' : Bio B V} {call : BioCall B V}
    (h : Charged c c' (c.resized hash call)) (hfree : 0 ≤ c.freebufspace) :
    0 ≤ c'.freebufspace ↔ c.Affords hash call := by
  unfold Affords
  rcases hresized : c.resized hash call with _ | r
  · rw [hresized] at h
    exact iff_of_true (h hfree) fun bp size heq ↦ (by cases heq)
  · rw [hresized] at h
    have hcost : c'.freebufspace = c.freebufspace - (r.2 - (c.buf r.1).bufsize) := h
    rw [hcost, sub_nonneg]
    constructor
    · intro hle bp size heq
      cases heq
      exact hle
    · exact fun hall ↦ hall r.1 r.2 rfl

end Bio

variable [Fintype B]

/-- The space is all accounted for, and none is owed. -/
structure Budget (space : ℤ) (c : Bio B V) : Prop where
  constant : c.freebufspace + c.allocbufspace = space
  alloc : c.allocbufspace = ∑ bp with (c.buf bp).addr = true, (c.buf bp).bufsize
  nonneg : 0 ≤ c.freebufspace

variable {space : ℤ} {headers : List B}

omit [DecidableEq B] in
theorem Bio.Sound.budget_iff {c : Bio B V} (h : c.Sound space) :
    Budget space c ↔ 0 ≤ c.freebufspace := by
  refine ⟨Budget.nonneg, fun hfree ↦ ⟨h.total, ?_, hfree⟩⟩
  rw [Finset.sum_filter]
  exact h.alloc

omit [DecidableEq B] in
theorem sound_bufinit (hnodup : headers.Nodup) (hall : ∀ bp, bp ∈ headers) :
    (bufinit space headers : Bio B V).Sound space where
  total := add_zero space
  alloc := (Finset.sum_eq_zero fun _ _ ↦ rfl).symm
  nodup := hnodup
  owns bp := iff_of_false Bool.false_ne_true (not_not.mpr (hall bp))
  idle _ _ := rfl
  age _ h := absurd h List.not_mem_nil
  lru _ h := absurd h List.not_mem_nil
  chain _ _ h := absurd h List.not_mem_nil

variable [DecidableEq V] {hash : V → ℤ → ℕ} {calls : List (BioCall B V)}

/-- In every run on the space set aside at startup, what is free and what is allocated stay that
space, what is allocated is the memory of the buffers, and what is free does not become negative,
just if no buffer that gets memory of another size grows by more than what is free. -/
theorem buffer_budget (hspace : 0 ≤ space) (hnodup : headers.Nodup) (hall : ∀ bp, bp ∈ headers)
    (hheld : Machine.Each (bioStep hash) Bio.Held calls (bufinit space headers)) :
    Machine.Each (bioStep hash) (fun c call ↦ Budget space (bioStep hash c call).2) calls
        (bufinit space headers) ↔
      Machine.Each (bioStep hash) (Bio.Affords hash) calls (bufinit space headers) := by
  refine Machine.each_iff (fun c ↦ c.Sound space ∧ 0 ≤ c.freebufspace) (c := Bio.Held)
    (fun c call h hheld ↦ ?_) (fun c call h hheld haffords ↦ ?_) calls
    ⟨sound_bufinit hnodup hall, hspace⟩ hheld
  · obtain ⟨hsound, hcharged⟩ := h.1.step hash hheld
    exact hsound.budget_iff.trans (hcharged.nonneg_iff h.2)
  · obtain ⟨hsound, hcharged⟩ := h.1.step hash hheld
    exact ⟨hsound, (hcharged.nonneg_iff h.2).mpr haffords⟩

/-- A block of 512 bytes is read, released, and read with 1024 bytes, as much as there is. -/
theorem buffer_budget_grows :
    Machine.Each (bioStep fun _ _ ↦ 0) (fun c call ↦ Budget 1024 (bioStep (fun _ _ ↦ 0) c call).2)
      [.getblk true () 0 512, .brelse (), .getblk true () 0 1024]
      (bufinit 1024 [()] : Bio Unit Unit) := by
  have hheld : Machine.Each (bioStep fun _ _ ↦ 0) Bio.Held
      [.getblk true () 0 512, .brelse (), .getblk true () 0 1024]
      (bufinit 1024 [()] : Bio Unit Unit) := ⟨trivial, rfl, trivial, trivial⟩
  refine (buffer_budget (by decide) (by decide) (fun _ ↦ List.mem_cons_self) hheld).mpr
    ⟨fun bp size h ↦ ?_, fun bp size h ↦ ?_, fun bp size h ↦ ?_, trivial⟩
  · cases h
  · cases h
  · cases h
    decide

/-- Of 1024 bytes, 512 go to the only buffer, which is then recycled for a block of 8192 bytes. -/
theorem buffer_budget_overdrawn :
    ¬∀ calls : List (BioCall Unit Unit),
      Machine.Each (bioStep fun _ _ ↦ 0) Bio.Held calls (bufinit 1024 [()]) →
        Machine.Each (bioStep fun _ _ ↦ 0)
          (fun c call ↦ Budget 1024 (bioStep (fun _ _ ↦ 0) c call).2) calls
            (bufinit 1024 [()]) := by
  intro hall
  have hheld : Machine.Each (bioStep fun _ _ ↦ 0) Bio.Held
      [.getblk true () 0 512, .brelse (), .getblk true () 1 8192]
      (bufinit 1024 [()] : Bio Unit Unit) := ⟨trivial, rfl, trivial, trivial⟩
  obtain ⟨-, -, hbudget, -⟩ := hall _ hheld
  have hnonneg := hbudget.nonneg
  exact absurd hnonneg (by decide)

end Bsd386.Kern.Fs
