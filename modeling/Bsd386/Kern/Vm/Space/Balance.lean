import Bsd386.Kern.Vm.Space.Locks

/-!
# The functions on address spaces give back the locks they take
-/

namespace Bsd386.Kern.Vm

variable {E O M : Type}

/-- An entry does not lead back to the map it is in. -/
def Straight (m : M) (e : MapEntry E (Ref O M)) : Prop := e.object ≠ some (.map m)

theorem uniform_straight (m : M) : Uniform (Straight m : MapEntry E (Ref O M) → Prop) :=
  fun _ _ _ _ _ he ↦ he

/-- What the entry of a map says about a share map. -/
def Leads [DecidableEq E] (m : M) (id : E) (isAMap : Bool) (object : Option (Ref O M))
    (maps : Maps E O M) : Prop :=
  ∃ map e, maps m = some map ∧ map.entry id = .ok e ∧ e.isAMap = isAMap ∧
    (isAMap = true → e.object = object)

/-- What is known of the maps while an entry is locked. -/
def Locking [DecidableEq E] (m : M) (id : E) (isAMap : Bool) (object : Option (Ref O M))
    (maps : Maps E O M) : Prop :=
  AllEntries Straight maps ∧ Leads m id isAMap object maps

namespace Space

variable [DecidableEq E] [LinearOrder M] {α : Type} {J : Maps E O M → Prop} {H : M → Hold}

theorem setHold_other (H : M → Hold) {m n : M} (hne : n ≠ m) (h : Hold) : setHold H m h n = H n :=
  if_neg hne

/-- The shared holds of a map, and of a share map if there is one. -/
def sharedBoth (H : M → Hold) (map shareMap : M) : M → Hold :=
  if shareMap ≠ map then shared (shared H map) shareMap else shared H map

omit [DecidableEq E] in
theorem takes_upgraded {map shareMap : M} {change : Space E O M Unit} (hchange : Quiet J change)
    (hdepth : (H shareMap).recursive = false → (H shareMap).depth = 0) :
    Takes J (sharedBoth H map shareMap) (upgraded map shareMap change)
      fun lost ↦ if lost then H else sharedBoth H map shareMap := by
  unfold upgraded sharedBoth
  by_cases hne : shareMap ≠ map
  · have hsame : shared H map shareMap = H shareMap := setHold_other H hne _
    rw [if_pos hne]
    refine Takes.bind (takes_lockReadToWrite shareMap) fun lost ↦ Takes.ite (fun hlost ↦ ?_)
      fun hlost ↦ ?_
    · rw [if_pos hlost, if_pos hne]
      exact Takes.bind (takes_vmMapUnlockRead map) fun _ ↦ Takes.pure rfl
    · rw [if_neg hlost]
      refine Takes.bind (hchange _) fun _ ↦ Takes.bind (takes_lockWriteToRead ?_) fun _ ↦
        Takes.pure rfl
      rwa [hsame]
  · rw [if_neg hne]
    rw [not_not] at hne
    rw [← hne]
    refine Takes.bind (takes_lockReadToWrite shareMap) fun lost ↦ Takes.ite (fun hlost ↦ ?_)
      fun hlost ↦ ?_
    · rw [if_pos hlost, if_neg (not_not.2 rfl)]
      exact Takes.pure rfl
    · rw [if_neg hlost]
      exact Takes.bind (hchange _) fun _ ↦ Takes.bind (takes_lockWriteToRead hdepth) fun _ ↦
        Takes.pure rfl

/-- An object is put into the entry that is locked, or into one of its share map. -/
theorem quiet_modify_locking {map shareMap : M} {outEntry entry : E} {isAMap : Bool}
    {object : Option (Ref O M)} (hshare : isAMap = true → shareMap ≠ map)
    {edit : MapEntry E (Ref O M) → MapEntry E (Ref O M)}
    (hid : ∀ e, (edit e).id = e.id ∧ (edit e).isAMap = e.isAMap)
    (hobject : ∀ e, ∃ o, (edit e).object = some (.object o)) :
    Quiet (Locking map outEntry isAMap object) (modifyEntry shareMap entry edit) := by
  refine quiet_modifyEntry_of fun maps map' hlocking hm ↦ ⟨?_, ?_⟩
  · refine hlocking.1.putMap ((hlocking.1 shareMap map' hm).modify entry fun e _ ↦ ?_)
    obtain ⟨o, ho⟩ := hobject e
    unfold Straight
    rw [ho]
    exact fun heq ↦ by cases heq
  · obtain ⟨map₀, e, hm₀, hentry, hflag, hobject'⟩ := hlocking.2
    unfold Leads putMap
    by_cases hsame : map = shareMap
    · obtain rfl : map₀ = map' := Option.some.inj (hm₀.symm.trans (hsame ▸ hm))
      have hfalse : isAMap = false := by
        by_contra htrue
        exact hshare (Bool.of_not_eq_false htrue) hsame.symm
      refine ⟨_, if e.id = entry then edit e else e, if_pos hsame, ?_, ?_, fun htrue ↦ ?_⟩
      · rw [VmMap.entry_modify fun e ↦ (hid e).1, hentry]
        rfl
      · split_ifs
        · exact (hid e).2.trans hflag
        · exact hflag
      · exact absurd (hfalse.symm.trans htrue) (by simp)
    · exact ⟨map₀, e, (if_neg hsame).trans hm₀, hentry, hflag, hobject'⟩

variable {map shareMap : M} {outEntry : E} {isAMap : Bool} {object : Option (Ref O M)}

/-- The lookup keeps the shared holds, unless it has to be made again, and returns the entry. -/
def Found (map : M) (outEntry : E) (found : Option (Lookup E O M)) : Prop :=
  ∀ f, found = some f → f.map = map ∧ f.entry = outEntry

theorem takes_lookupResult (entry : E) (shareOffset : VmOffset) (prot : ℕ) (wired single : Bool) :
    Takes J (sharedBoth H map shareMap)
      (lookupResult map outEntry shareMap entry shareOffset prot wired single :
        Space E O M (Option (Lookup E O M)))
      fun found ↦ if found.isSome then sharedBoth H map shareMap else H := by
  refine Takes.bind (quiet_entryOf shareMap entry _) fun e ↦ Takes.ite (fun _ ↦ ?_) fun _ ↦ ?_
  · exact Takes.pure rfl
  · exact Takes.bind (quiet_choose _) fun _ ↦ Takes.pure rfl

omit [DecidableEq E] in
theorem takes_again {x : Space E O M (Option (Lookup E O M))} {change : Space E O M Unit}
    (hchange : Quiet J change)
    (hdepth : (H shareMap).recursive = false → (H shareMap).depth = 0)
    (hx : Takes J (sharedBoth H map shareMap) x
      fun found ↦ if found.isSome then sharedBoth H map shareMap else H) :
    Takes J (sharedBoth H map shareMap)
      (do if ← upgraded map shareMap change then return none else x)
      fun found ↦ if found.isSome then sharedBoth H map shareMap else H := by
  refine Takes.bind (takes_upgraded hchange hdepth) fun lost ↦ ?_
  cases lost with
  | true => exact Takes.pure rfl
  | false => exact hx

theorem takes_lookupObject (env : Env E O M) (hshare : isAMap = true → shareMap ≠ map)
    (hdepth : (H shareMap).recursive = false → (H shareMap).depth = 0) (entry : E)
    (shareOffset : VmOffset) (prot faultType : ℕ) (wired single : Bool) :
    Takes (Locking map outEntry isAMap object) (sharedBoth H map shareMap)
      (lookupObject env map outEntry shareMap entry shareOffset prot faultType wired single)
      fun found ↦ if found.isSome then sharedBoth H map shareMap else H := by
  have hshadow : Quiet (Locking map outEntry isAMap object) (shadowEntry env shareMap entry) :=
    Quiet.bind Quiet.read fun _ ↦ quiet_modify_locking hshare (fun _ ↦ ⟨rfl, rfl⟩) fun _ ↦ ⟨_, rfl⟩
  have hallocate : Quiet (Locking map outEntry isAMap object)
      (allocateEntry env shareMap entry) :=
    Quiet.bind Quiet.read fun _ ↦ quiet_modify_locking hshare (fun _ ↦ ⟨rfl, rfl⟩) fun _ ↦ ⟨_, rfl⟩
  have hallocated : ∀ prot, Takes (Locking map outEntry isAMap object) (sharedBoth H map shareMap)
      (lookupAllocated env map outEntry shareMap entry shareOffset prot wired single)
      fun found ↦ if found.isSome then sharedBoth H map shareMap else H := by
    intro prot
    have hresult : Takes (Locking map outEntry isAMap object) (sharedBoth H map shareMap)
        (lookupResult map outEntry shareMap entry shareOffset prot wired single)
        fun found ↦ if found.isSome then sharedBoth H map shareMap else H :=
      takes_lookupResult entry shareOffset prot wired single
    exact Takes.bind (quiet_entryOf shareMap entry _) fun e ↦
      Takes.ite (fun _ ↦ takes_again hallocate hdepth hresult) fun _ ↦ hresult
  exact Takes.bind (quiet_entryOf shareMap entry _) fun e ↦
    Takes.ite (fun _ ↦ Takes.ite (fun _ ↦ takes_again hshadow hdepth (hallocated _)) fun _ ↦
      hallocated _) fun _ ↦ hallocated _

omit [DecidableEq E] [LinearOrder M] in
theorem Found.some {f : Lookup E O M} (hmap : f.map = map) (hentry : f.entry = outEntry) :
    Found map outEntry (some f) := by
  intro g hg
  cases hg
  exact ⟨hmap, hentry⟩

theorem found_lookupObject (env : Env E O M) (entry : E) (shareOffset : VmOffset)
    (prot faultType : ℕ) (wired single : Bool) (w : World E O M) :
    Ensures (lookupObject env map outEntry shareMap entry shareOffset prot faultType wired single)
      (fun found _ ↦ Found map outEntry found) w := by
  have hresult : ∀ prot w, Ensures (lookupResult map outEntry shareMap entry shareOffset prot wired
      single : Space E O M (Option (Lookup E O M))) (fun found _ ↦ Found map outEntry found) w :=
    fun prot w ↦ Ensures.bind .any fun _ _ _ ↦ Ensures.ite_iff.2
      ⟨fun _ ↦ Ensures.pure_iff.2 (Found.some rfl rfl), fun _ ↦ Ensures.bind .any fun _ _ _ ↦
        Ensures.pure_iff.2 (Found.some rfl rfl)⟩
  have hnone : ∀ w : World E O M, Ensures (pure none : Space E O M (Option (Lookup E O M)))
      (fun found _ ↦ Found map outEntry found) w :=
    fun w ↦ Ensures.pure_iff.2 fun f hf ↦ by cases hf
  have hallocated : ∀ prot w, Ensures (lookupAllocated env map outEntry shareMap entry shareOffset
      prot wired single) (fun found _ ↦ Found map outEntry found) w :=
    fun prot w ↦ Ensures.bind .any fun _ _ _ ↦ Ensures.ite_iff.2
      ⟨fun _ ↦ Ensures.bind .any fun _ _ _ ↦ Ensures.ite_iff.2
        ⟨fun _ ↦ hnone _, fun _ ↦ hresult _ _⟩, fun _ ↦ hresult _ _⟩
  exact Ensures.bind .any fun _ _ _ ↦ Ensures.ite_iff.2
    ⟨fun _ ↦ Ensures.ite_iff.2 ⟨fun _ ↦ Ensures.bind .any fun _ _ _ ↦ Ensures.ite_iff.2
      ⟨fun _ ↦ hnone _, fun _ ↦ hallocated _ _⟩, fun _ ↦ hallocated _ _⟩, fun _ ↦ hallocated _ _⟩

/-! ## Lookups -/

/-- A lookup that has found an entry holds shared locks on its map and on the share map of the
entry, if it has one. -/
def Retains (H : M → Hold) (m : M) (id : E) (w : World E O M) : Prop :=
  ∃ map e, w.maps m = some map ∧ map.entry id = .ok e ∧
    (e.isAMap = false ∧ w.held = shared H m ∨
      ∃ s, e.isAMap = true ∧ e.object = some (.map s) ∧ w.held = shared (shared H m) s)

omit [DecidableEq E] in
theorem vmMapUnlock_shared (m : M) (w : World E O M) (hheld : w.held = shared H m) :
    vmMapUnlock m w = .ok ((), { w with held := H }) := by
  have hdone : setHold (shared H m) m (shared H m m).lockDone = H := by
    rw [shared, setHold_same, setHold_setHold, Hold.lockDone_addRead, setHold_self]
  calc vmMapUnlock m w
      = .ok ((), { w with held := setHold w.held m (w.held m).lockDone }) := rfl
    _ = .ok ((), { w with held := H }) := by rw [hheld, hdone]

/-- These are the locks that `vm_map_lookup_done` releases. -/
theorem Retains.done {m : M} {id : E} {w : World E O M} (hretains : Retains H m id w) :
    vmMapLookupDone m id w = .ok ((), { w with held := H }) := by
  obtain ⟨map, e, hm, he, hcase⟩ := hretains
  have hentry : entryOf m id w = .ok (e, w) := by
    have hget : getMap m w = .ok (map, w) := by
      simp only [getMap, bind, StateT.bind, get, getThe, MonadStateOf.get, StateT.get, pure,
        Except.pure, Except.bind, hm]
      rfl
    calc entryOf m id w
        = (getMap m w >>= fun p ↦ StateT.lift (p.1.entry id) p.2) := rfl
      _ = StateT.lift (map.entry id) w := by rw [hget]; rfl
      _ = .ok (e, w) := by rw [he]; rfl
  have hunfold : vmMapLookupDone m id w =
      (if e.isAMap then do
        vmMapUnlock (← innerMap e)
        vmMapUnlock m
      else vmMapUnlock m : Space E O M Unit) w := by
    calc vmMapLookupDone m id w
        = (entryOf m id w >>= fun p ↦ (if p.1.isAMap then do
            vmMapUnlock (← innerMap p.1)
            vmMapUnlock m
          else vmMapUnlock m : Space E O M Unit) p.2) := rfl
      _ = _ := by rw [hentry]; rfl
  rw [hunfold]
  rcases hcase with ⟨hflag, hheld⟩ | ⟨s, hflag, hs, hheld⟩
  · rw [if_neg (by simp [hflag])]
    exact vmMapUnlock_shared m w hheld
  · have hinner : innerMap e w = .ok (s, w) := by
      unfold innerMap
      rw [hs]
      rfl
    rw [if_pos hflag]
    calc (innerMap e >>= fun s ↦ vmMapUnlock s >>= fun _ ↦ vmMapUnlock m : Space E O M Unit) w
        = (innerMap e w >>= fun p ↦ (vmMapUnlock p.1 >>= fun _ ↦ vmMapUnlock m) p.2) := rfl
      _ = (vmMapUnlock s w >>= fun p ↦ vmMapUnlock m p.2) := by rw [hinner]; rfl
      _ = vmMapUnlock m { w with held := shared H m } := by
        rw [vmMapUnlock_shared s w hheld]
        rfl
      _ = .ok ((), { w with held := H }) := vmMapUnlock_shared m _ rfl

theorem Retains.ensures_done {m : M} {id : E} {w : World E O M} (hretains : Retains H m id w)
    (hJ : J w.maps) :
    Ensures (vmMapLookupDone m id) (fun _ w' ↦ J w'.maps ∧ w'.held = H) w := by
  intro a w' hok
  rw [hretains.done] at hok
  cases hok
  exact ⟨hJ, rfl⟩

theorem quiet_lookup_locking (m : M) (address : VmOffset) :
    Quiet (Locking map outEntry isAMap object)
      (vmMapLookupEntry m address : Space E O M (Bool × Option E)) := by
  refine quiet_onMap fun maps map₀ a map' hlocking hm hok ↦ ?_
  obtain ⟨⟨found, entry, map₁⟩, hlookup, hok⟩ := exists_of_bind_ok hok
  have hentries := VmMap.entries_of_lookup hlookup
  cases hok
  refine ⟨hlocking.1.putMap (VmMap.every_of_entries (hlocking.1 m map₀ hm) hentries), ?_⟩
  obtain ⟨map₂, e, hm₂, hentry, hleads⟩ := hlocking.2
  unfold Leads putMap
  by_cases hsame : map = m
  · obtain rfl : map₂ = map₀ := Option.some.inj (hm₂.symm.trans (hsame ▸ hm))
    refine ⟨_, e, if_pos hsame, ?_, hleads⟩
    unfold VmMap.entry at hentry ⊢
    rwa [hentries]
  · exact ⟨map₂, e, (if_neg hsame).trans hm₂, hentry, hleads⟩

theorem Locking.retains {w : World E O M} (hlocking : Locking map outEntry isAMap object w.maps)
    (hprivate : isAMap = false → w.held = shared H map)
    (hshared : isAMap = true → ∃ s, object = some (.map s) ∧ w.held = shared (shared H map) s) :
    Retains H map outEntry w := by
  obtain ⟨map', e, hm, he, hflag, hobject⟩ := hlocking.2
  refine ⟨map', e, hm, he, ?_⟩
  cases isAMap with
  | false => exact .inl ⟨hflag, hprivate rfl⟩
  | true =>
    obtain ⟨s, hs, hheld⟩ := hshared rfl
    exact .inr ⟨s, hflag, (hobject rfl).trans hs, hheld⟩

/-- What `vm_map_lookup` holds when it returns. -/
def Looked (H : M → Hold) (found : Except KernReturn (Lookup E O M)) (w : World E O M) : Prop :=
  AllEntries Straight w.maps ∧
    match found with
    | .error _ => w.held = H
    | .ok f => Retains H f.map f.entry w

/-- The end of `vm_map_lookup`, which may begin again. -/
theorem ensures_lookupObject (env : Env E O M) {again : Space E O M (Except KernReturn _)}
    (hdepth : ∀ m, (H m).recursive = false → (H m).depth = 0)
    (hprivate : isAMap = false → shareMap = map)
    (hshared : isAMap = true → object = some (.map shareMap) ∧ shareMap ≠ map) (entry : E)
    (shareOffset : VmOffset) (prot faultType : ℕ) (wired single : Bool) {w : World E O M}
    (hlocking : Locking map outEntry isAMap object w.maps)
    (hheld : w.held = sharedBoth H map shareMap)
    (hagain : ∀ w : World E O M, AllEntries Straight w.maps → w.held = H →
      Ensures again (Looked H) w) :
    Ensures (do
      match ← lookupObject env map outEntry shareMap entry shareOffset prot faultType wired
          single with
      | some found => return .ok found
      | none => again) (Looked H) w := by
  have hobject := takes_lookupObject env (fun h ↦ (hshared h).2) (hdepth shareMap) entry shareOffset
    prot faultType wired single w hlocking hheld
  refine Ensures.bind (hobject.and (found_lookupObject env entry shareOffset prot faultType wired
    single w)) fun found w' hw' ↦ ?_
  obtain ⟨⟨hlocking', hheld'⟩, hfound⟩ := hw'
  cases found with
  | none => exact hagain w' hlocking'.1 hheld'
  | some f =>
    obtain ⟨hmap, hentry⟩ := hfound f rfl
    refine Ensures.pure_iff.2 ⟨hlocking'.1, ?_⟩
    change Retains H f.map f.entry w'
    rw [hmap, hentry]
    refine Locking.retains hlocking' (fun hflag ↦ ?_) fun hflag ↦ ?_
    · exact hheld'.trans (if_neg (not_not.2 (hprivate hflag)))
    · obtain ⟨hobject', hne⟩ := hshared hflag
      exact ⟨shareMap, hobject', hheld'.trans (if_pos hne)⟩

theorem ensures_vmMapLookup (env : Env E O M)
    (hdepth : ∀ m, (H m).recursive = false → (H m).depth = 0) (turns : ℕ) (map : M)
    (vaddr : VmOffset) (faultType : ℕ) (w : World E O M) (hw : AllEntries Straight w.maps)
    (hheld : w.held = H) :
    Ensures (vmMapLookup env turns map vaddr faultType) (Looked H) w := by
  induction turns generalizing map faultType w with
  | zero =>
    unfold vmMapLookup
    exact Ensures.throw_iff.2 trivial
  | succ turns ih =>
    unfold vmMapLookup
    refine Ensures.bind (takes_vmMapLockRead map w hw hheld) fun _ w₁ h₁ ↦ ?_
    refine Ensures.bind (quiet_hintOrLookup map vaddr _ w₁ h₁.1 h₁.2) fun id w₂ h₂ ↦ ?_
    cases id with
    | none =>
      exact Ensures.bind (takes_vmMapUnlockRead map w₂ h₂.1 h₂.2) fun _ _ h ↦ Ensures.pure_iff.2 h
    | some id =>
      refine Ensures.bind (ensures_entryOf map id w₂) fun e w₃ he ↦ ?_
      obtain ⟨⟨map₀, hm, he⟩, rfl⟩ := he
      have hstraight : Straight map e := (h₂.1 map map₀ hm).entry he
      have hlocking : Locking map id e.isAMap e.object w₃.maps := by
        exact ⟨h₂.1, map₀, e, hm, he, rfl, fun _ ↦ rfl⟩
      refine Ensures.ite_iff.2 ⟨fun _ ↦ ?_, fun _ ↦ Ensures.ite_iff.2 ⟨fun _ ↦ ?_, fun _ ↦
        Ensures.ite_iff.2 ⟨fun hflag ↦ ?_, fun hflag ↦ ?_⟩⟩⟩
      · refine Ensures.bind (ensures_innerMap e w₃) fun s w₄ hs ↦ ?_
        obtain ⟨-, rfl⟩ := hs
        exact Ensures.bind (takes_vmMapUnlockRead map w₄ h₂.1 h₂.2) fun _ w₅ h ↦
          ih s _ w₅ h.1 h.2
      · exact Ensures.bind (takes_vmMapUnlockRead map w₃ h₂.1 h₂.2) fun _ _ h ↦ Ensures.pure_iff.2 h
      · refine Ensures.bind (ensures_innerMap e w₃) fun s w₄ hs ↦ ?_
        obtain ⟨hs, rfl⟩ := hs
        have hne : s ≠ map := fun heq ↦ hstraight (heq ▸ hs)
        refine Ensures.bind (takes_vmMapLockRead s w₄ hlocking h₂.2) fun _ w₅ h₅ ↦
          Ensures.bind (quiet_lookup_locking s _ _ w₅ h₅.1 h₅.2) fun result w₆ h₆ ↦ ?_
        have hunlock : Ensures (do
            vmMapUnlock s
            vmMapUnlock map
            return .error .invalidAddress : Space E O M (Except KernReturn (Lookup E O M)))
            (Looked H) w₆ :=
          Ensures.bind (takes_vmMapUnlockRead s w₆ h₆.1.1 h₆.2) fun _ w₇ h₇ ↦
            Ensures.bind (takes_vmMapUnlockRead map w₇ h₇.1 h₇.2) fun _ _ h ↦ Ensures.pure_iff.2 h
        obtain ⟨found, entry⟩ := result
        rcases found with _ | _
        · exact hunlock
        · rcases entry with _ | entry
          · exact hunlock
          · refine ensures_lookupObject env hdepth (fun hfalse ↦ ?_) (fun _ ↦ ⟨hs, hne⟩) entry _ _ _
              _ _ h₆.1 (h₆.2.trans (if_pos hne).symm) fun w hw hheld ↦ ih map _ w hw hheld
            exact absurd (hfalse.symm.trans hflag) (by simp)
      · refine ensures_lookupObject env hdepth (fun _ ↦ rfl) (fun htrue ↦ absurd htrue hflag) id _ _
          _ _ _ hlocking (h₂.2.trans (if_neg (not_not.2 rfl)).symm) fun w hw hheld ↦
            ih map _ w hw hheld

/-- One of the choices is made after a lookup, and the lookup is done with. -/
theorem Looked.choose_done {f : Lookup E O M} {w : World E O M} (hlooked : Looked H (.ok f) w)
    {g : Bool → Space E O M α} {Q : α → World E O M → Prop}
    (hg : ∀ c w', AllEntries Straight w'.maps → w'.held = H → Ensures (g c) Q w') :
    Ensures (do
      let c ← choose
      vmMapLookupDone f.map f.entry
      g c) Q w := by
  have hchoose := quiet_choose (J := fun maps ↦ maps = w.maps) w.held w rfl rfl
  refine Ensures.bind hchoose fun c w₁ h₁ ↦ ?_
  have hretains : Retains H f.map f.entry w₁ := by
    unfold Retains
    rw [h₁.1, h₁.2]
    exact hlooked.2
  have hdone := hretains.ensures_done (J := AllEntries Straight) (h₁.1 ▸ hlooked.1)
  exact Ensures.bind hdone fun _ w₂ h₂ ↦ hg c w₂ h₂.1 h₂.2

variable [DecidableEq O]

/-- The holds are not changed by a fault. -/
theorem takes_vmFault (env : Env E O M)
    (hdepth : ∀ m, (H m).recursive = false → (H m).depth = 0) (turns : ℕ) (map : M)
    (vaddr : VmOffset) (faultType : ℕ) :
    Takes (AllEntries Straight) H (vmFault env turns map vaddr faultType) fun _ ↦ H := by
  induction turns generalizing map faultType with
  | zero =>
    unfold vmFault
    exact Takes.throw _
  | succ turns ih =>
    intro w hw hheld
    unfold vmFault
    refine Ensures.bind (ensures_vmMapLookup env hdepth turns map vaddr faultType w hw hheld)
      fun found w₁ h₁ ↦ ?_
    cases found with
    | error result => exact Ensures.pure_iff.2 h₁
    | ok f =>
      refine Looked.choose_done h₁ fun sleeps w₂ hw₂ hheld₂ ↦ ?_
      refine Takes.bind (quiet_choose H) (fun _ ↦ Takes.ite (fun _ ↦ ih _ _) fun _ ↦ Takes.ite
        (fun _ ↦ Takes.bind (quiet_choose H) fun _ ↦ Takes.ite (fun _ ↦ Takes.pure rfl) fun _ ↦ ?_)
        fun _ ↦ Takes.bind (quiet_choose H) fun _ ↦ Takes.ite (fun _ ↦ Takes.pure rfl)
          fun _ ↦ Takes.pure rfl) w₂ hw₂ hheld₂
      intro w₃ hw₃ hheld₃
      refine Ensures.bind (ensures_vmMapLookup env hdepth turns _ vaddr _ w₃ hw₃ hheld₃)
        fun again w₄ h₄ ↦ ?_
      cases again with
      | error result => exact Ensures.pure_iff.2 h₄
      | ok g =>
        exact Ensures.bind (h₄.2.ensures_done h₄.1) fun _ w₅ h₅ ↦
          Takes.ite (fun _ ↦ Takes.pure rfl) (fun _ ↦ ih _ _) w₅ h₅.1 h₅.2

theorem takes_vmFaultWire (env : Env E O M)
    (hdepth : ∀ m, (H m).recursive = false → (H m).depth = 0) (m : M) (endAddr : VmOffset)
    (turns : ℕ) (va : VmOffset) :
    Takes (AllEntries Straight) H (vmFaultWire env m endAddr turns va) fun _ ↦ H := by
  induction turns generalizing va with
  | zero =>
    unfold vmFaultWire
    exact Takes.throw _
  | succ turns ih =>
    unfold vmFaultWire
    exact Takes.ite (fun _ ↦ Takes.bind (takes_vmFault env hdepth turns m va 0) fun _ ↦ ih _)
      fun _ ↦ Takes.pure rfl

theorem takes_activatePages (env : Env E O M)
    (hdepth : ∀ m, (H m).recursive = false → (H m).depth = 0) (m : M) (maxProtection : ℕ)
    (endAddr : VmOffset) (turns : ℕ) (adr : VmOffset) :
    Takes (AllEntries Straight) H (activatePages env m maxProtection endAddr turns adr)
      fun _ ↦ H := by
  induction turns generalizing adr with
  | zero =>
    unfold activatePages
    exact Takes.throw _
  | succ turns ih =>
    unfold activatePages
    exact Takes.ite (fun _ ↦ Takes.bind (takes_vmFault env hdepth turns m adr maxProtection)
      fun _ ↦ Takes.ite (fun _ ↦ Takes.pure rfl) fun _ ↦ ih _) fun _ ↦ Takes.pure rfl

end Space

end Bsd386.Kern.Vm
