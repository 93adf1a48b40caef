import Mathlib.Algebra.Group.Pi.Lemmas
import Mathlib.Tactic.Abel
import Bsd386.Kern.Vm.PageFault.Basic
import Bsd386.Lib.Partial

/-!
# The page fault handler gives back what it takes

At each point of the handler that is jumped to, its ledger is known from the local variables: the
reference to the top object, the two objects it is at, the page it keeps in the top object while it
is further down, and the page it has found. The recovery macros undo just that.
-/

namespace Bsd386.Kern.Vm.PageFault

variable {M O P : Type} [DecidableEq O] [DecidableEq P]

/-- What a handler has taken since its ledger was `base`, and that the views it still has show
chains that end. -/
structure Owes (rank : O → ℕ) (base : Ledger O P) (references inProgress : O → ℤ) (pages : P → ℤ)
    (fake : P → Prop) (lookups : ℤ) (h : Handler M O P) : Prop where
  refCount_eq : h.refCount = base.refCount + references
  paging_eq : h.pagingInProgress = base.pagingInProgress + inProgress
  busy_eq : h.busy = base.busy + pages
  fake_sub : ∀ p, h.fake p = true → fake p
  lookups_eq : h.lookups = base.lookups + lookups
  descends : ∀ view ∈ h.views, ∀ o o', view.shadow o = some o' → rank o' < rank o

variable {rank : O → ℕ} {base : Ledger O P} {references inProgress : O → ℤ} {pages : P → ℤ}
  {fake : P → Prop} {lookups : ℤ} {h : Handler M O P}

namespace Owes

omit [DecidableEq O] [DecidableEq P] in
theorem congr (ho : Owes rank base references inProgress pages fake lookups h)
    {references' inProgress' : O → ℤ} {pages' : P → ℤ} {fake' : P → Prop} {lookups' : ℤ}
    (hreferences : references = references') (hpaging : inProgress = inProgress')
    (hpages : pages = pages')
    (hfake : ∀ p, fake p → fake' p) (hlookups : lookups = lookups') :
    Owes rank base references' inProgress' pages' fake' lookups' h :=
  ⟨hreferences ▸ ho.refCount_eq, hpaging ▸ ho.paging_eq, hpages ▸ ho.busy_eq,
    fun p hp ↦ hfake p (ho.fake_sub p hp), hlookups ▸ ho.lookups_eq, ho.descends⟩

/-! ## Assignments -/

omit [DecidableEq O] [DecidableEq P] in
theorem see (ho : Owes rank base references inProgress pages fake lookups h) :
    Ensures see (fun view h' ↦ (∀ o o', view.shadow o = some o' → rank o' < rank o) ∧ h' = h)
      h := by
  have hdescends := ho.descends
  unfold PageFault.see
  rw [Ensures.bind_iff, Ensures.get_iff]
  cases hviews : h.views with
  | nil => exact Ensures.throw_iff.2 trivial
  | cons view views =>
    exact Ensures.pure_iff.2 ⟨hdescends view (hviews ▸ List.mem_cons_self ..), rfl⟩

omit [DecidableEq O] [DecidableEq P] in
theorem block (ho : Owes rank base references inProgress pages fake lookups h) :
    Ensures block (fun _ ↦ Owes rank base references inProgress pages fake lookups) h :=
  Ensures.modify_iff.2 ⟨ho.refCount_eq, ho.paging_eq, ho.busy_eq, ho.fake_sub, ho.lookups_eq,
    fun view hview ↦ ho.descends view (List.mem_of_mem_tail hview)⟩

omit [DecidableEq P] in
theorem addPaging (ho : Owes rank base references inProgress pages fake lookups h) (o : O) (n : ℤ) :
    Ensures (addPaging o n)
      (fun _ ↦ Owes rank base references (inProgress + Pi.single o n) pages fake lookups) h :=
  Ensures.modify_iff.2 ⟨ho.refCount_eq, by rw [ho.paging_eq, add_assoc], ho.busy_eq, ho.fake_sub,
    ho.lookups_eq, ho.descends⟩

omit [DecidableEq P] in
theorem addReference (ho : Owes rank base references inProgress pages fake lookups h) (o : O)
    (n : ℤ) :
    Ensures (addReference o n)
      (fun _ ↦ Owes rank base (references + Pi.single o n) inProgress pages fake lookups) h :=
  Ensures.modify_iff.2 ⟨by rw [ho.refCount_eq, add_assoc], ho.paging_eq, ho.busy_eq, ho.fake_sub,
    ho.lookups_eq, ho.descends⟩

omit [DecidableEq O] in
theorem setBusy (ho : Owes rank base references inProgress pages fake lookups h) (m : P) :
    Ensures (setBusy m)
      (fun _ ↦ Owes rank base references inProgress (pages + Pi.single m 1) fake lookups) h :=
  Ensures.modify_iff.2 ⟨ho.refCount_eq, ho.paging_eq, by rw [ho.busy_eq, add_assoc], ho.fake_sub,
    ho.lookups_eq, ho.descends⟩

omit [DecidableEq O] in
theorem pageWakeup (ho : Owes rank base references inProgress pages fake lookups h) (m : P) :
    Ensures (pageWakeup m)
      (fun _ ↦ Owes rank base references inProgress (pages - Pi.single m 1) fake lookups) h :=
  Ensures.modify_iff.2 ⟨ho.refCount_eq, ho.paging_eq, by rw [ho.busy_eq, add_sub_assoc],
    ho.fake_sub,
    ho.lookups_eq, ho.descends⟩

omit [DecidableEq O] in
theorem setFake (ho : Owes rank base references inProgress pages fake lookups h) (m : P) :
    Ensures (setFake m true)
      (fun _ ↦ Owes rank base references inProgress pages (fun p ↦ p = m ∨ fake p) lookups) h := by
  refine Ensures.modify_iff.2 ⟨ho.refCount_eq, ho.paging_eq, ho.busy_eq, fun p hp ↦ ?_,
    ho.lookups_eq, ho.descends⟩
  by_cases hpm : p = m
  · exact .inl hpm
  · exact .inr (ho.fake_sub p ((if_neg hpm).symm.trans hp))

omit [DecidableEq O] in
theorem clearFake (ho : Owes rank base references inProgress pages fake lookups h) (m : P) :
    Ensures (PageFault.setFake m false)
      (fun _ ↦ Owes rank base references inProgress pages (fun p ↦ p ≠ m ∧ fake p) lookups) h := by
  refine Ensures.modify_iff.2 ⟨ho.refCount_eq, ho.paging_eq, ho.busy_eq, fun p hp ↦ ?_,
    ho.lookups_eq, ho.descends⟩
  by_cases hpm : p = m
  · exact absurd (hp.symm.trans (if_pos hpm)) (by simp)
  · exact ⟨hpm, ho.fake_sub p ((if_neg hpm).symm.trans hp)⟩

omit [DecidableEq O] in
theorem freePage (ho : Owes rank base references inProgress pages fake lookups h) (m : P) :
    Ensures (freePage m) (fun _ ↦ Owes rank base references inProgress (pages - Pi.single m 1)
      (fun p ↦ p ≠ m ∧ fake p) lookups) h :=
  Ensures.bind (ho.pageWakeup m) fun _ _ ho ↦ ho.clearFake m

omit [DecidableEq O] in
theorem vmPageAlloc (ho : Owes rank base references inProgress pages fake lookups h) (o : O)
    (offset : VmOffset) :
    Ensures (vmPageAlloc o offset) (fun m h' ↦
      match m with
      | none => Owes rank base references inProgress pages fake lookups h'
      | some m => Owes rank base references inProgress (pages + Pi.single m 1)
          (fun p ↦ p = m ∨ fake p) lookups h') h := by
  refine Ensures.bind ho.see ?_
  rintro view h' ⟨-, rfl⟩
  cases hfree : view.free o offset with
  | none => exact Ensures.pure_iff.2 ho
  | some m =>
    exact Ensures.bind (ho.setBusy m) fun _ _ ho ↦
      Ensures.bind (ho.setFake m) fun _ _ ho ↦ Ensures.pure_iff.2 ho

omit [DecidableEq P] in
theorem vmObjectDeallocate (ho : Owes rank base references inProgress pages fake lookups h)
    (o : O) :
    Ensures (vmObjectDeallocate o)
      (fun _ ↦ Owes rank base (references + Pi.single o (-1)) inProgress pages fake lookups) h :=
  Ensures.bind (ho.addReference o (-1)) fun _ _ ho ↦ ho.block

omit [DecidableEq O] [DecidableEq P] in
theorem vmMapLookup (ho : Owes rank base references inProgress pages fake lookups h) (map : M)
    (vaddr : VmOffset) (faultType : ℕ) :
    Ensures (vmMapLookup map vaddr faultType) (fun found h' ↦
      match found with
      | .error _ => Owes rank base references inProgress pages fake lookups h'
      | .ok _ => Owes rank base references inProgress pages fake (lookups + 1) h') h := by
  refine Ensures.bind ho.block fun _ _ ho ↦ Ensures.bind ho.see ?_
  rintro view h' ⟨-, rfl⟩
  cases hlookup : view.lookup map vaddr faultType with
  | error result => exact Ensures.pure_iff.2 ho
  | ok found =>
    refine Ensures.bind (Ensures.modify_iff.2 ?_) fun _ _ ho ↦ Ensures.pure_iff.2 ho
    exact ⟨ho.refCount_eq, ho.paging_eq, ho.busy_eq, ho.fake_sub, by rw [ho.lookups_eq, add_assoc],
      ho.descends⟩

end Owes

omit [DecidableEq O] [DecidableEq P] in
theorem ensures_page {m : Option P} :
    Ensures (page m) (fun p h' ↦ m = some p ∧ h' = h) h := by
  unfold page
  rw [Ensures.lift_iff]
  intro p hp
  cases m with
  | none => cases hp
  | some q =>
    cases hp
    exact ⟨rfl, rfl⟩

omit [DecidableEq O] [DecidableEq P] in
theorem ensures_page_of {m : Option P} {p : P} (hm : m = some p) :
    Ensures (page m) (fun q h' ↦ p = q ∧ h' = h) h :=
  ensures_page.mono fun _ _ hq ↦ ⟨Option.some.inj (hm.symm.trans hq.1), hq.2⟩

/-! ## What the local variables stand for -/

/-- The busy flag of a page, if there is one. -/
def pageOf (m : Option P) : P → ℤ := m.elim 0 (Pi.single · 1)

namespace Locals

/-- The objects at which the handler is counted. -/
def paging (v : Locals M O P) : O → ℤ :=
  Pi.single v.firstObject 1 + if v.object = v.firstObject then 0 else Pi.single v.object 1

/-- The page that is kept in the top object while the handler is further down. -/
def kept (v : Locals M O P) : P → ℤ := if v.object = v.firstObject then 0 else pageOf v.firstM

def Placeholder (v : Locals M O P) (p : P) : Prop :=
  v.object ≠ v.firstObject ∧ v.firstM = some p

def valid (v : Locals M O P) : ℤ := if v.lookupStillValid then 1 else 0

/-- The object is the top object or further down its chain. -/
def Below (rank : O → ℕ) (v : Locals M O P) : Prop :=
  v.object ≠ v.firstObject → rank v.object < rank v.firstObject

end Locals

/-- Nothing is taken. -/
abbrev Free (rank : O → ℕ) (base : Ledger O P) (h : Handler M O P) : Prop :=
  Owes rank base 0 0 0 (fun _ ↦ False) 0 h

/-- What is taken for the local variables, besides a page that has been found. -/
abbrev Inside (rank : O → ℕ) (base : Ledger O P) (v : Locals M O P) (pages : P → ℤ)
    (fake : P → Prop) (h : Handler M O P) : Prop :=
  Owes rank base (Pi.single v.firstObject 1) v.paging (v.kept + pages)
    (fun p ↦ v.Placeholder p ∨ fake p) v.valid h

/-- The invariant of the handler. -/
def Place.Inv (rank : O → ℕ) (base : Ledger O P) : Place M O P → Handler M O P → Prop
  | .retry _ _, h => Free rank base h
  | .search v, h => v.Below rank ∧ Inside rank base v 0 (fun _ ↦ False) h
  | .found v, h | .copy v, h | .enter v, h =>
    ∃ m, v.m = some m ∧ Inside rank base v (Pi.single m 1) (fun _ ↦ False) h

def Next.Inv (rank : O → ℕ) (base : Ledger O P) : Next M O P → Handler M O P → Prop
  | .goto place, h => place.Inv rank base h
  | .return_ _, h => Free rank base h

variable {v : Locals M O P}

/-! ## Recovery -/

omit [DecidableEq O] [DecidableEq P] in
theorem Owes.unlockMap (ho : Owes rank base references inProgress pages fake
    (lookups + v.valid) h) :
    Ensures (unlockMap v) (fun w h' ↦ w = { v with lookupStillValid := false } ∧
      Owes rank base references inProgress pages fake lookups h') h := by
  unfold PageFault.unlockMap
  refine Ensures.ite_iff.2 ⟨fun hvalid ↦ ?_, fun hvalid ↦ ?_⟩
  · refine Ensures.bind (Ensures.modify_iff.2 ?_) fun _ _ ho ↦ Ensures.pure_iff.2 ⟨rfl, ho⟩
    refine ⟨ho.refCount_eq, ho.paging_eq, ho.busy_eq, ho.fake_sub, ?_, ho.descends⟩
    have hlookups := ho.lookups_eq
    unfold Locals.valid at hlookups
    rw [if_pos hvalid] at hlookups
    exact (congrArg (· - 1) hlookups).trans (by omega)
  · have hv : v = { v with lookupStillValid := false } := by
      cases v
      simpa using hvalid
    refine Ensures.pure_iff.2 ⟨hv, ho.congr rfl rfl rfl (fun _ hp ↦ hp) ?_⟩
    unfold Locals.valid
    rw [if_neg hvalid, add_zero]

/-- `UNLOCK_THINGS` leaves the reference to the top object. -/
theorem Owes.unlockThings
    (ho : Inside rank base v 0 (fun _ ↦ False) h) :
    Ensures (unlockThings v) (fun w h' ↦ w = { v with lookupStillValid := false } ∧
      Owes rank base (Pi.single v.firstObject 1) 0 0 (fun _ ↦ False) 0 h') h := by
  unfold PageFault.unlockThings
  refine Ensures.bind (ho.addPaging v.object (-1)) fun _ _ ho ↦
    Ensures.ite_iff.2 ⟨fun hobject ↦ ?_, fun hobject ↦ ?_⟩
  · refine Ensures.bind ensures_page ?_
    rintro firstM _ ⟨hfirst, rfl⟩
    refine Ensures.bind (ho.freePage firstM) fun _ _ ho ↦
      Ensures.bind (ho.addPaging v.firstObject (-1)) fun _ _ ho ↦ Owes.unlockMap ?_
    refine ho.congr rfl ?_ ?_ ?_ (zero_add _).symm
    · unfold Locals.paging
      rw [if_neg hobject, Pi.single_neg, Pi.single_neg]
      abel
    · unfold Locals.kept pageOf
      rw [if_neg hobject, hfirst, add_zero]
      exact sub_self _
    · rintro p ⟨hp, ⟨-, hplace⟩ | hfalse⟩
      · exact hp (Option.some.inj (hplace.symm.trans hfirst))
      · exact hfalse
  · rw [not_not] at hobject
    refine Owes.unlockMap (ho.congr rfl ?_ ?_ ?_ (zero_add _).symm)
    · unfold Locals.paging
      rw [if_pos hobject, hobject, Pi.single_neg, add_zero, add_neg_cancel]
    · unfold Locals.kept
      rw [if_pos hobject, add_zero]
    · rintro p (⟨hp, -⟩ | hfalse)
      · exact hp hobject
      · exact hfalse

omit [DecidableEq P] in
theorem Owes.deallocateFirst {o : O}
    (ho : Owes rank base (Pi.single o 1) 0 0 (fun _ ↦ False) 0 h) :
    Ensures (PageFault.vmObjectDeallocate o) (fun _ ↦ Free rank base) h :=
  (ho.vmObjectDeallocate o).mono fun _ _ ho ↦
    ho.congr (by rw [Pi.single_neg, add_neg_cancel]) rfl rfl (fun _ hp ↦ hp) rfl

theorem Owes.unlockAndDeallocate (ho : Inside rank base v 0 (fun _ ↦ False) h) :
    Ensures (unlockAndDeallocate v) (fun _ ↦ Free rank base) h := by
  refine Ensures.bind ho.unlockThings ?_
  rintro w _ ⟨rfl, ho⟩
  exact ho.deallocateFirst

theorem Owes.waitForPage (ho : Inside rank base v 0 (fun _ ↦ False) h) :
    Ensures (waitForPage v) (Next.Inv rank base) h := by
  refine Ensures.bind ho.unlockThings ?_
  rintro w _ ⟨rfl, ho⟩
  exact Ensures.bind ho.block fun _ _ ho ↦
    Ensures.bind ho.deallocateFirst fun _ _ ho ↦ Ensures.pure_iff.2 ho

theorem Owes.waitForMemory (ho : Inside rank base v 0 (fun _ ↦ False) h) :
    Ensures (waitForMemory v) (Next.Inv rank base) h :=
  Ensures.bind ho.unlockAndDeallocate fun _ _ ho ↦
    Ensures.bind ho.block fun _ _ ho ↦ Ensures.pure_iff.2 ho

/-! ## The search -/

theorem Owes.lookupFirst (ho : Free rank base h) (vaddr : VmOffset) (map : M) (faultType : ℕ) :
    Ensures (lookupFirst vaddr map faultType) (Next.Inv rank base) h := by
  refine Ensures.bind (ho.vmMapLookup map vaddr faultType) fun result _ ho ↦ ?_
  cases result with
  | error result => exact Ensures.pure_iff.2 ho
  | ok found =>
    refine Ensures.bind (Owes.addReference ho found.object 1) fun _ _ ho ↦
      Ensures.bind (ho.addPaging found.object 1) fun _ _ ho ↦
        Ensures.pure_iff.2 ⟨fun hne ↦ absurd rfl hne, ?_⟩
    refine ho.congr (zero_add _) ?_ ?_ (fun _ hp ↦ absurd hp not_false) (zero_add _)
    · simp [Locals.paging]
    · simp [Locals.kept]

theorem Owes.residentPage (ho : Inside rank base v 0 (fun _ ↦ False) h) (m : P) :
    Ensures (residentPage v m) (Next.Inv rank base) h := by
  refine Ensures.bind ho.see ?_
  rintro view _ ⟨-, rfl⟩
  refine Ensures.ite_iff.2 ⟨fun _ ↦ ho.waitForPage, fun _ ↦ Ensures.ite_iff.2 ⟨fun _ ↦
    ho.waitForPage, fun _ ↦ Ensures.bind (ho.setBusy m) fun _ _ ho ↦ Ensures.pure_iff.2 ?_⟩⟩
  exact ⟨m, rfl, ho.congr rfl rfl (by rw [add_zero]; rfl) (fun _ hp ↦ hp) rfl⟩

/-- The page of the top object that is kept when the chain is followed. -/
def Locals.top (v : Locals M O P) : Option P := if v.object = v.firstObject then v.m else v.firstM

/-- What is taken before the chain is followed. -/
abbrev Ready (rank : O → ℕ) (base : Ledger O P) (v : Locals M O P) (top : Option P)
    (h : Handler M O P) : Prop :=
  Owes rank base (Pi.single v.firstObject 1) v.paging (pageOf top) (fun p ↦ top = some p) v.valid h

theorem Owes.ready_below (ho : Inside rank base v 0 (fun _ ↦ False) h)
    (hobject : v.object ≠ v.firstObject) : Ready rank base v v.top h := by
  refine ho.congr rfl rfl ?_ ?_ rfl
  · simp only [Locals.kept, Locals.top, if_neg hobject, add_zero]
  · rintro p (⟨-, hplace⟩ | hfalse)
    · exact (if_neg hobject).trans hplace
    · exact absurd hfalse not_false

theorem Owes.ready_top {m : P} (ho : Inside rank base v (Pi.single m 1) (· = m) h)
    (hobject : v.object = v.firstObject) (hm : v.m = some m) : Ready rank base v v.top h := by
  refine ho.congr rfl rfl ?_ ?_ rfl
  · simp only [Locals.kept, Locals.top, pageOf, if_pos hobject, hm, zero_add]
    rfl
  · rintro p (⟨hne, -⟩ | rfl)
    · exact absurd hobject hne
    · exact (if_pos hobject).trans hm

theorem Owes.zeroFill (ho : Ready rank base v v.firstM h) (htop : v.top = v.firstM) :
    Ensures (zeroFill v) (Next.Inv rank base) h := by
  unfold Locals.top at htop
  refine Ensures.ite_iff.2 ⟨fun hobject ↦ ?_, fun hobject ↦ ?_⟩
  · refine Ensures.bind (ho.addPaging v.object (-1)) fun _ _ ho ↦ Ensures.bind ensures_page ?_
    rintro m _ ⟨hfirst, rfl⟩
    refine Ensures.bind (ho.clearFake m) fun _ _ ho ↦ Ensures.pure_iff.2 ⟨m, rfl, ?_⟩
    refine ho.congr rfl ?_ ?_ ?_ rfl
    · simp only [Locals.paging, if_neg hobject, if_true, Pi.single_neg]
      abel
    · simp [Locals.kept, pageOf, hfirst]
    · rintro p ⟨hp, hplace⟩
      exact absurd (Option.some.inj (hplace.symm.trans hfirst)) hp
  · rw [not_not] at hobject
    rw [if_pos hobject] at htop
    refine Ensures.bind ensures_page ?_
    rintro m _ ⟨hm, rfl⟩
    refine Ensures.bind (ho.clearFake m) fun _ _ ho ↦ Ensures.pure_iff.2 ⟨m, rfl, ?_⟩
    refine ho.congr rfl rfl ?_ ?_ rfl
    · simp [Locals.kept, pageOf, hobject, ← htop, hm]
    · rintro p ⟨hp, hplace⟩
      exact absurd (Option.some.inj ((htop.trans hplace).symm.trans hm)) hp

theorem Owes.followShadow (ho : Ready rank base v v.top h) (hbelow : v.Below rank) :
    Ensures (followShadow v) (Next.Inv rank base) h := by
  refine Ensures.bind ho.see ?_
  rintro view _ ⟨hdescends, rfl⟩
  have htop : (if v.object = v.firstObject then v.m else v.firstM) = v.top := rfl
  simp only [htop]
  cases hshadow : view.shadow v.object with
  | none =>
    refine Owes.zeroFill ho ?_
    unfold Locals.top
    split_ifs with hobject
    · rfl
    · rfl
  | some next =>
    have hnext : rank next < rank v.firstObject := by
      by_cases hobject : v.object = v.firstObject
      · exact hobject ▸ hdescends _ _ hshadow
      · exact (hdescends _ _ hshadow).trans (hbelow hobject)
    have hne : next ≠ v.firstObject := fun heq ↦ absurd (heq ▸ hnext) (lt_irrefl _)
    refine Ensures.ite_iff.2 ⟨fun hobject ↦ ?_, fun hobject ↦ ?_⟩
    · refine Ensures.bind (ho.addPaging v.object (-1)) fun _ _ ho ↦
        Ensures.bind (ho.addPaging next 1) fun _ _ ho ↦ Ensures.pure_iff.2 ⟨fun _ ↦ hnext, ?_⟩
      refine ho.congr rfl ?_ ?_ (fun p hp ↦ .inl ⟨hne, hp⟩) rfl
      · simp only [Locals.paging, if_neg hobject, if_neg hne, Pi.single_neg]
        abel
      · simp [Locals.kept, hne]
    · rw [not_not] at hobject
      refine Ensures.bind (ho.addPaging next 1) fun _ _ ho ↦ Ensures.pure_iff.2 ⟨fun _ ↦ hnext, ?_⟩
      refine ho.congr rfl ?_ ?_ (fun p hp ↦ .inl ⟨hne, hp⟩) rfl
      · simp only [Locals.paging, if_pos hobject, if_neg hne, add_zero]
      · simp [Locals.kept, hne]

/-- The pager is asked for a page that has just been allocated. -/
theorem Owes.fetchPage {m : P} (hm : v.m = some m)
    (ho : Inside rank base v (Pi.single m 1) (· = m) h) (hbelow : v.Below rank) :
    Ensures (fetchPage v) (Next.Inv rank base) h := by
  have hvalid : v.valid = 0 + v.valid := (zero_add _).symm
  refine Ensures.bind (Owes.unlockMap (ho.congr rfl rfl rfl (fun _ hp ↦ hp) hvalid)) ?_
  rintro w _ ⟨rfl, ho⟩
  refine Ensures.bind (ensures_page_of hm) ?_
  rintro _ _ ⟨rfl, rfl⟩
  refine Ensures.bind ho.see ?_
  rintro view _ ⟨-, rfl⟩
  refine Ensures.bind ho.block fun _ _ ho ↦ Ensures.ite_iff.2 ⟨fun _ ↦ ?_, fun _ ↦ ?_⟩
  · refine Ensures.bind ho.see ?_
    rintro view' _ ⟨-, rfl⟩
    refine Ensures.bind ensures_page ?_
    rintro new _ ⟨-, rfl⟩
    refine Ensures.bind (Ensures.bind (ho.freePage m) fun _ _ ho ↦ ho.setBusy new) fun _ _ ho ↦
      Ensures.bind (ho.clearFake new) fun _ _ ho ↦ Ensures.pure_iff.2 ⟨new, rfl, ?_⟩
    refine ho.congr rfl rfl ?_ ?_ rfl
    · rw [add_sub_cancel_right]
      rfl
    · rintro p ⟨-, hp, hplace | hpm⟩
      · exact .inl hplace
      · exact absurd hpm hp
  · refine Ensures.ite_iff.2 ⟨fun hobject ↦ ?_, fun hobject ↦ ?_⟩
    · refine Ensures.bind (ho.freePage m) fun _ h' ho ↦ ?_
      have hinside : Inside rank base { v with lookupStillValid := false } 0
        (fun _ ↦ False) h' := by
        refine ho.congr rfl rfl ?_ ?_ rfl
        · rw [add_sub_cancel_right, add_zero]
          rfl
        · rintro p ⟨hp, hplace | hpm⟩
          · exact .inl hplace
          · exact absurd hpm hp
      refine Ensures.ite_iff.2 ⟨fun _ ↦ Ensures.bind hinside.unlockAndDeallocate fun _ _ ho ↦
        Ensures.pure_iff.2 ho, fun _ ↦ Owes.followShadow (hinside.ready_below hobject) hbelow⟩
    · exact Owes.followShadow (Owes.ready_top ho (not_not.1 hobject) hm) hbelow

theorem Owes.missingPage (changeWiring : Bool) (ho : Inside rank base v 0 (fun _ ↦ False) h)
    (hbelow : v.Below rank) : Ensures (missingPage changeWiring v) (Next.Inv rank base) h := by
  refine Ensures.bind ho.see ?_
  rintro view _ ⟨-, rfl⟩
  refine Ensures.ite_iff.2 ⟨fun hneed ↦ Ensures.ite_iff.2 ⟨fun _ ↦ Ensures.bind
    ho.unlockAndDeallocate fun _ _ ho ↦ Ensures.pure_iff.2 ho, fun _ ↦
      Ensures.bind (ho.vmPageAlloc v.object v.offset) fun m h' ho' ↦ ?_⟩, fun hnone ↦ ?_⟩
  · cases m with
    | none => exact Owes.waitForMemory ho'
    | some m =>
      have hm : Inside rank base { v with m := some m } (Pi.single m 1) (· = m) h' := by
        refine Owes.congr ho' rfl rfl ?_ ?_ rfl
        · rw [add_zero]
          rfl
        · rintro p (hp | hplace | hfalse)
          · exact .inr hp
          · exact .inl hplace
          · exact absurd hfalse not_false
      refine Ensures.ite_iff.2 ⟨fun _ ↦ Owes.fetchPage rfl hm hbelow, fun hfetches ↦ ?_⟩
      exact Owes.followShadow (hm.ready_top (hneed.resolve_left hfetches) rfl) hbelow
  · rw [not_or] at hnone
    exact Owes.followShadow (Owes.ready_below ho hnone.2) hbelow

theorem Owes.searchTurn (changeWiring : Bool) (ho : Inside rank base v 0 (fun _ ↦ False) h)
    (hbelow : v.Below rank) : Ensures (searchTurn changeWiring v) (Next.Inv rank base) h := by
  refine Ensures.bind ho.see ?_
  rintro view _ ⟨-, rfl⟩
  cases view.resident v.object v.offset with
  | none => exact ho.missingPage changeWiring hbelow
  | some m => exact ho.residentPage m

/-- A page that was found further down takes the place of the one that was kept. -/
theorem Owes.copyUp {m : P} (hm : v.m = some m)
    (ho : Inside rank base v (Pi.single m 1) (fun _ ↦ False) h) :
    Ensures (copyUp v) (Next.Inv rank base) h := by
  refine Ensures.ite_iff.2 ⟨fun hcopy ↦ ?_, fun _ ↦ Ensures.pure_iff.2 ⟨m, hm, ho⟩⟩
  refine Ensures.bind (ensures_page_of hm) ?_
  rintro _ _ ⟨rfl, rfl⟩
  refine Ensures.bind ensures_page ?_
  rintro firstM _ ⟨hfirst, rfl⟩
  refine Ensures.bind (ho.clearFake firstM) fun _ _ ho ↦ Ensures.bind (ho.pageWakeup m) fun _ _ ho ↦
    Ensures.bind (ho.addPaging v.object (-1)) fun _ _ ho ↦
      Ensures.bind (ho.addPaging v.firstObject (-1)) fun _ _ ho ↦ Ensures.bind ho.block fun _ _ ho ↦
        Ensures.bind (ho.addPaging v.firstObject 1) fun _ _ ho ↦
          Ensures.pure_iff.2 ⟨firstM, rfl, ?_⟩
  refine ho.congr rfl ?_ ?_ ?_ rfl
  · simp only [Locals.paging, if_neg hcopy.1, if_true, Pi.single_neg]
    abel
  · simp [Locals.kept, pageOf, if_neg hcopy.1, hfirst]
  · rintro p ⟨hp, ⟨-, hplace⟩ | hfalse⟩
    · exact absurd (Option.some.inj (hplace.symm.trans hfirst)) hp
    · exact .inr hfalse

/-! ## The copy object -/

/-- What is taken for the local variables and the copy object, besides the page that was found. -/
abbrev Copying (rank : O → ℕ) (base : Ledger O P) (v : Locals M O P) (copyObject : O)
    (pages : P → ℤ) (fake : P → Prop) (h : Handler M O P) : Prop :=
  Owes rank base (Pi.single v.firstObject 1 + Pi.single copyObject 1) v.paging (v.kept + pages)
    (fun p ↦ v.Placeholder p ∨ fake p) v.valid h

theorem Owes.dropCopy {copyObject : O}
    (ho : Copying rank base v copyObject pages (fun _ ↦ False) h) :
    Ensures (PageFault.addReference copyObject (-1))
      (fun _ ↦ Inside rank base v pages (fun _ ↦ False)) h :=
  (Owes.addReference ho copyObject (-1)).mono fun _ _ ho ↦
    ho.congr (by rw [Pi.single_neg, add_neg_cancel_right]) rfl rfl (fun _ hp ↦ hp) rfl

theorem Owes.releasePage {copyObject m : _} (ho : Copying rank base v copyObject
    (Pi.single (m : P) 1) (fun _ ↦ False) h) :
    Ensures (PageFault.releasePage m)
      (fun _ ↦ Copying rank base v copyObject 0 (fun _ ↦ False)) h :=
  (Owes.pageWakeup ho m).mono fun _ _ ho ↦
    ho.congr rfl rfl (by rw [add_sub_cancel_right, add_zero]) (fun _ hp ↦ hp) rfl

theorem Owes.fillCopy {copyObject : O} {m copyM : P} (hm : v.m = some m)
    (ho : Copying rank base v copyObject (Pi.single m 1 + Pi.single copyM 1) (· = copyM) h) :
    Ensures (fillCopy v copyObject copyM) (Next.Inv rank base) h := by
  refine Ensures.bind (Owes.clearFake ho copyM) fun _ _ ho ↦
    Ensures.bind (ho.pageWakeup copyM) fun _ _ ho ↦ Ensures.bind (Owes.dropCopy ?_) fun _ _ ho ↦
      Ensures.pure_iff.2 ⟨m, hm, ho⟩
  refine ho.congr rfl rfl ?_ ?_ rfl
  · rw [← add_assoc, add_sub_cancel_right]
  · rintro p ⟨hp, hplace | hcopy⟩
    · exact .inl hplace
    · exact absurd hcopy hp

theorem Owes.missingCopy {copyObject : O} {m : P} (hm : v.m = some m) (copyOffset : VmOffset)
    (ho : Copying rank base v copyObject (Pi.single m 1) (fun _ ↦ False) h) :
    Ensures (missingCopy v copyObject copyOffset) (Next.Inv rank base) h := by
  refine Ensures.bind (Owes.vmPageAlloc ho copyObject copyOffset) fun copyM h' ho ↦ ?_
  cases copyM with
  | none =>
    refine Ensures.bind (ensures_page_of hm) ?_
    rintro _ _ ⟨rfl, rfl⟩
    exact Ensures.bind (Owes.releasePage ho) fun _ _ ho ↦
      Ensures.bind ho.dropCopy fun _ _ ho ↦ ho.waitForMemory
  | some copyM =>
    have hcopy : Copying rank base v copyObject (Pi.single m 1 + Pi.single copyM 1) (· = copyM)
        h' := by
      refine Owes.congr ho rfl rfl (add_assoc ..) ?_ rfl
      rintro p (hp | hplace | hfalse)
      · exact .inr hp
      · exact .inl hplace
      · exact absurd hfalse not_false
    refine Ensures.bind hcopy.see ?_
    rintro view _ ⟨-, rfl⟩
    refine Ensures.ite_iff.2 ⟨fun _ ↦ ?_, fun _ ↦ hcopy.fillCopy hm⟩
    have hvalid : v.valid = 0 + v.valid := (zero_add _).symm
    refine Ensures.bind (Owes.unlockMap (hcopy.congr rfl rfl rfl (fun _ hp ↦ hp) hvalid)) ?_
    rintro w _ ⟨rfl, ho⟩
    refine Ensures.bind ho.block fun _ _ ho ↦ Ensures.bind ho.see ?_
    rintro view' h'' ⟨-, rfl⟩
    have hfree : Ensures (PageFault.freePage copyM) (fun _ ↦ Copying rank base
        { v with lookupStillValid := false } copyObject (Pi.single m 1) (fun _ ↦ False)) h'' := by
      refine (ho.freePage copyM).mono fun _ _ ho ↦ ho.congr rfl rfl ?_ ?_ rfl
      · rw [← add_assoc, add_sub_cancel_right]
        rfl
      · rintro p ⟨hp, hplace | hcopy⟩
        · exact .inl hplace
        · exact absurd hcopy hp
    refine Ensures.ite_iff.2 ⟨fun _ ↦ ?_, fun _ ↦ Ensures.ite_iff.2 ⟨fun _ ↦ ?_, fun _ ↦ ?_⟩⟩
    · exact Ensures.bind hfree fun _ _ ho ↦ Ensures.bind (Ensures.bind ho.dropCopy fun _ _ ho ↦
        ho.block) fun _ _ ho ↦ Ensures.pure_iff.2 ⟨m, hm, ho⟩
    · exact Ensures.bind hfree fun _ _ ho ↦ Ensures.bind ho.dropCopy fun _ _ ho ↦
        Ensures.pure_iff.2 ⟨m, hm, ho⟩
    · exact Owes.fillCopy hm ho

theorem Owes.copyTurn {m : P} (hm : v.m = some m)
    (ho : Inside rank base v (Pi.single m 1) (fun _ ↦ False) h) :
    Ensures (copyTurn v) (Next.Inv rank base) h := by
  refine Ensures.bind ho.see ?_
  rintro view _ ⟨-, rfl⟩
  cases view.copy v.firstObject with
  | none => exact Ensures.pure_iff.2 ⟨m, hm, ho⟩
  | some copyObject =>
    refine Ensures.ite_iff.2 ⟨fun _ ↦ Ensures.pure_iff.2 ⟨m, hm, ho⟩, fun _ ↦
      Ensures.bind (ho.addReference copyObject 1) fun _ _ ho ↦ ?_⟩
    dsimp only
    cases view.resident copyObject (v.firstOffset - view.shadowOffset copyObject) with
    | none => exact Owes.missingCopy hm _ ho
    | some copyM =>
      refine Ensures.ite_iff.2 ⟨fun _ ↦ Ensures.bind (ensures_page_of hm) ?_, fun _ ↦
        Ensures.bind (Owes.dropCopy ho) fun _ _ ho ↦ Ensures.pure_iff.2 ⟨m, hm, ho⟩⟩
      rintro _ _ ⟨rfl, rfl⟩
      exact Ensures.bind (Owes.releasePage ho) fun _ _ ho ↦
        Ensures.bind ho.dropCopy fun _ _ ho ↦ ho.waitForPage

/-! ## The end -/

/-- The page that was found is woken. -/
theorem Owes.wake {m : P} (ho : Inside rank base v (Pi.single m 1) (fun _ ↦ False) h) :
    Ensures (PageFault.pageWakeup m) (fun _ ↦ Inside rank base v 0 (fun _ ↦ False)) h :=
  (ho.pageWakeup m).mono fun _ _ ho ↦
    ho.congr rfl rfl (by rw [add_sub_cancel_right, add_zero]) (fun _ hp ↦ hp) rfl

theorem Owes.enterPage {m : P} (hm : v.m = some m)
    (ho : Inside rank base v (Pi.single m 1) (fun _ ↦ False) h) :
    Ensures (enterPage v) (Next.Inv rank base) h := by
  refine Ensures.bind (ensures_page_of hm) ?_
  rintro _ _ ⟨rfl, rfl⟩
  exact Ensures.bind ho.wake fun _ _ ho ↦ Ensures.bind ho.unlockAndDeallocate fun _ _ ho ↦
    Ensures.pure_iff.2 ho

theorem Owes.relookup (vaddr : VmOffset) {m : P} (hm : v.m = some m)
    (ho : Inside rank base v (Pi.single m 1) (fun _ ↦ False) h) :
    Ensures (relookup vaddr v) (Next.Inv rank base) h := by
  refine Ensures.ite_iff.2 ⟨fun _ ↦ ho.enterPage hm, fun hvalid ↦
    Ensures.bind (ho.vmMapLookup v.map vaddr (dropWrite v.faultType)) fun result h' ho ↦ ?_⟩
  cases result with
  | error result =>
    refine Ensures.bind (ensures_page_of hm) ?_
    rintro _ _ ⟨rfl, rfl⟩
    exact Ensures.bind (Owes.wake ho) fun _ _ ho ↦ Ensures.bind ho.unlockAndDeallocate fun _ _ ho ↦
      Ensures.pure_iff.2 ho
  | ok found =>
    have hagain : Inside rank base
        { v with map := found.map, wired := found.wired, lookupStillValid := true }
        (Pi.single m 1) (fun _ ↦ False) h' := by
      refine Owes.congr ho rfl rfl rfl (fun _ hp ↦ hp) ?_
      simp [Locals.valid, hvalid]
    refine Ensures.ite_iff.2 ⟨fun _ ↦ Ensures.bind (ensures_page_of hm) ?_, fun _ ↦
      hagain.enterPage hm⟩
    rintro _ _ ⟨rfl, rfl⟩
    exact Ensures.bind hagain.wake fun _ _ ho ↦ Ensures.bind ho.unlockAndDeallocate fun _ _ ho ↦
      Ensures.pure_iff.2 ho

/-! ## Runs -/

/-- One segment of the handler keeps the invariant. -/
theorem Place.Inv.segment {place : Place M O P} (hinv : place.Inv rank base h) (vaddr : VmOffset)
    (changeWiring : Bool) :
    Ensures (PageFault.segment vaddr changeWiring place) (Next.Inv rank base) h := by
  cases place with
  | retry map faultType => exact Owes.lookupFirst hinv vaddr map faultType
  | search v => exact hinv.2.searchTurn changeWiring hinv.1
  | found v =>
    obtain ⟨m, hm, ho⟩ := hinv
    exact ho.copyUp hm
  | copy v =>
    obtain ⟨m, hm, ho⟩ := hinv
    exact ho.copyTurn hm
  | enter v =>
    obtain ⟨m, hm, ho⟩ := hinv
    exact ho.relookup vaddr hm

theorem Place.Inv.run (vaddr : VmOffset) (changeWiring : Bool) (turns : ℕ) {place : Place M O P}
    (hinv : place.Inv rank base h) :
    Ensures (vmFaultFrom vaddr changeWiring turns place) (fun _ ↦ Free rank base) h := by
  induction turns generalizing place h with
  | zero => exact Ensures.throw_iff.2 trivial
  | succ turns ih =>
    refine Ensures.bind (hinv.segment vaddr changeWiring) fun next h' hnext ↦ ?_
    cases next with
    | goto place => exact ih hnext
    | return_ result => exact Ensures.pure_iff.2 hnext

/-- When `vm_fault` returns, with whatever result, the counters of all objects are as it found them,
no page is busy on its account, no page it has allocated is left without contents, and each of its
lookups is done. Chains of shadows may change while it sleeps, but they end. -/
theorem vm_fault_balanced {start h : Handler M O P} {turns : ℕ} {map : M} {vaddr : VmOffset}
    {faultType : ℕ} {changeWiring : Bool} {result : KernReturn} (rank : O → ℕ)
    (hchains : ∀ view ∈ start.views, ∀ o o', view.shadow o = some o' → rank o' < rank o)
    (hfake : ∀ p, start.fake p = false)
    (hrun : vmFault turns map vaddr faultType changeWiring start = .ok (result, h)) :
    h.pagingInProgress = start.pagingInProgress ∧ h.refCount = start.refCount ∧
      h.busy = start.busy ∧ (∀ p, h.fake p = false) ∧ h.lookups = start.lookups := by
  have hfree : Free rank start.toLedger start :=
    ⟨(add_zero _).symm, (add_zero _).symm, (add_zero _).symm,
      fun p hp ↦ absurd (hp.symm.trans (hfake p)) (by simp), (add_zero _).symm, hchains⟩
  have ho := (show (Place.retry map faultType).Inv rank start.toLedger start from hfree).run vaddr
    changeWiring turns _ _ hrun
  refine ⟨?_, ?_, ?_, fun p ↦ Bool.eq_false_iff.2 (ho.fake_sub p), ?_⟩
  · rw [ho.paging_eq, add_zero]
  · rw [ho.refCount_eq, add_zero]
  · rw [ho.busy_eq, add_zero]
  · rw [ho.lookups_eq, add_zero]

/-- A page is present in the shadow `0` of the object `1`, which has none. -/
def shadowed : View ℕ ℕ ℕ where
  lookup := fun map _ _ ↦ .ok { map, object := 1, offset := 0, prot := 1, wired := false }
  resident := fun object _ ↦ if object = 0 then some 7 else none
  free := fun _ _ ↦ some 9
  space := fun _ ↦ true
  pagerGet := fun _ _ ↦ .fail
  hasPage := fun _ _ ↦ false
  busy := fun _ ↦ false
  pageLock := fun _ ↦ 0
  pager := fun _ ↦ false
  pagingOffset := fun _ ↦ 0
  shadow := fun object ↦ if object = 1 then some 0 else none
  shadowOffset := fun _ ↦ 0
  copy := fun _ ↦ none
  refCount := fun _ ↦ 1

/-- The handler before a fault that finds that page. -/
def beforeShadowed : Handler ℕ ℕ ℕ where
  pagingInProgress := 0
  refCount := 0
  busy := 0
  fake := fun _ ↦ false
  lookups := 0
  views := [shadowed, shadowed]

/-- A read fault keeps a page in the object while it looks at the shadow, and then frees it. -/
theorem vm_fault_balanced_shadowed : ∃ h, vmFault 8 0 0 1 false beforeShadowed = .ok (.success, h) ∧
    h.pagingInProgress = beforeShadowed.pagingInProgress ∧
      h.refCount = beforeShadowed.refCount ∧ h.busy = beforeShadowed.busy ∧
        (∀ p, h.fake p = false) ∧ h.lookups = beforeShadowed.lookups := by
  obtain ⟨h, hrun⟩ : ∃ h, vmFault 8 0 0 1 false beforeShadowed = .ok (.success, h) := ⟨_, rfl⟩
  have hchain : ∀ o o', shadowed.shadow o = some o' → o' < o := by
    intro o o' hshadow
    by_cases ho : o = 1
    · rw [ho] at hshadow ⊢
      exact Option.some.inj hshadow ▸ Nat.one_pos
    · exact absurd ((if_neg ho).symm.trans hshadow) (by simp)
  refine ⟨h, hrun, vm_fault_balanced id (fun view hview ↦ ?_) (fun _ ↦ rfl) hrun⟩
  have hview' : view = shadowed := by simpa [beforeShadowed] using hview
  exact hview' ▸ hchain

end Bsd386.Kern.Vm.PageFault
