import Bsd386.Kern.Vm.Map.Entries
import Bsd386.Kern.Vm.Space.Routines
import Bsd386.Lib.Partial

/-!
# Locks of address maps

What the functions on address spaces hold of the locks of the maps. The rules follow the programs:
each operation takes what is held before it to what is held after it. Of the maps it is enough to
know that no entry leads back to the map it is in.
-/

namespace Bsd386.Kern.Vm

/-! ## Holds -/

namespace Hold

variable {h : Hold}

/-- No shared hold, and no recursion without the flag for it. -/
def Plain (h : Hold) : Prop := h.reads = 0 ∧ (h.recursive = false → h.depth = 0)

theorem lockDone_addWrite (hplain : h.Plain) : h.addWrite.lockDone = h := by
  obtain ⟨reads, writes, depth, recursive⟩ := h
  obtain ⟨rfl, hdepth⟩ := hplain
  cases recursive with
  | false => simp [addWrite, lockDone, releaseWrite, show depth = 0 from hdepth rfl]
  | true => simp [addWrite, lockDone, releaseWrite]

theorem lockDone_addRead (h : Hold) : h.addRead.lockDone = h := by
  simp [addRead, lockDone]

theorem lockWrite_ok {h' : Hold} (hok : h.lockWrite = .ok h') : h' = h.addWrite := by
  unfold lockWrite at hok
  split_ifs at hok
  · exact (Except.ok.inj hok).symm
  · exact (Except.ok.inj hok).symm

theorem lockRead_ok {h' : Hold} (hok : h.lockRead = .ok h') : h' = h.addRead := by
  unfold lockRead at hok
  split_ifs at hok
  · exact (Except.ok.inj hok).symm
  · exact (Except.ok.inj hok).symm

/-- An upgrade that has failed has given up the shared hold. -/
theorem lockReadToWrite_ok {asked lost : Bool} {h' : Hold}
    (hok : h.addRead.lockReadToWrite asked = .ok (lost, h')) :
    h' = if lost then h else h.addWrite := by
  have hless : { h.addRead with reads := h.addRead.reads - 1 } = h := rfl
  unfold lockReadToWrite at hok
  rw [hless] at hok
  dsimp only at hok
  split_ifs at hok
  · cases hok
    rfl
  · cases hok
    rfl
  · cases hok
    rfl

theorem lockWriteToRead_addWrite (hdepth : h.recursive = false → h.depth = 0) :
    h.addWrite.lockWriteToRead = h.addRead := by
  obtain ⟨reads, writes, depth, recursive⟩ := h
  cases recursive with
  | false => simp [addWrite, addRead, lockWriteToRead, releaseWrite, show depth = 0 from hdepth rfl]
  | true => simp [addWrite, addRead, lockWriteToRead, releaseWrite]

/-- Recursion that is set inside an exclusive hold is cleared again. -/
theorem lockClearRecursive_ok (hplain : h.Plain) {h' : Hold}
    (hok : lockClearRecursive { h.addWrite with recursive := true } = .ok h') :
    h' = h.addWrite := by
  obtain ⟨reads, writes, depth, recursive⟩ := h
  obtain ⟨rfl, hdepth⟩ := hplain
  cases recursive with
  | false =>
    have hzero : depth = 0 := hdepth rfl
    simp [lockClearRecursive, addWrite, hzero] at hok
    simp [addWrite, ← hok, hzero]
  | true =>
    simp [lockClearRecursive, addWrite] at hok
    simp [addWrite, ← hok]

/-- Without recursion of this hold, an older one is not cleared. -/
theorem lockClearRecursive_addWrite {h' : Hold} (hok : h.addWrite.lockClearRecursive = .ok h') :
    h' = h.addWrite := by
  obtain ⟨reads, writes, depth, recursive⟩ := h
  cases recursive with
  | false => simp [lockClearRecursive, addWrite] at hok
  | true =>
    simp [lockClearRecursive, addWrite] at hok
    simp [addWrite, ← hok]

/-- Held exclusively at least once. -/
def Exclusive (h : Hold) : Prop := ∃ h₀ : Hold, h₀.Plain ∧ h = h₀.addWrite

end Hold

variable {E O M : Type}

section

variable [DecidableEq M]

/-- What is held after a change of one of the holds. -/
def setHold (H : M → Hold) (m : M) (h : Hold) : M → Hold := fun n ↦ if n = m then h else H n

theorem setHold_setHold (H : M → Hold) (m : M) (h h' : Hold) :
    setHold (setHold H m h) m h' = setHold H m h' := by
  funext n
  unfold setHold
  split_ifs
  · rfl
  · rfl

theorem setHold_self (H : M → Hold) (m : M) : setHold H m (H m) = H := by
  funext n
  unfold setHold
  split_ifs with hn
  · rw [hn]
  · rfl

theorem setHold_same (H : M → Hold) (m : M) (h : Hold) : setHold H m h m = h := if_pos rfl

/-- An exclusive or a shared hold more, and recursion. -/
def locked (H : M → Hold) (m : M) : M → Hold := setHold H m (H m).addWrite

def shared (H : M → Hold) (m : M) : M → Hold := setHold H m (H m).addRead

def recursed (H : M → Hold) (m : M) : M → Hold := setHold H m { H m with recursive := true }

theorem exclusive_locked {H : M → Hold} {m : M} (hplain : (H m).Plain) :
    (locked H m m).Exclusive := ⟨H m, hplain, setHold_same H m _⟩

end

/-- The maps there are. -/
abbrev Maps (E O M : Type) := M → Option (VmMap E (Ref O M))

/-- The maps after a change of one of them. -/
def putMap [DecidableEq M] (maps : Maps E O M) (m : M) (map : VmMap E (Ref O M)) : Maps E O M :=
  fun n ↦ if n = m then some map else maps n

/-- A property that each entry of a map has. -/
def AllEntries (p : M → MapEntry E (Ref O M) → Prop) (maps : Maps E O M) : Prop :=
  ∀ m map, maps m = some map → map.Every (p m)

theorem AllEntries.putMap [DecidableEq M] {p : M → MapEntry E (Ref O M) → Prop}
    {maps : Maps E O M} (hp : AllEntries p maps) {m : M} {map : VmMap E (Ref O M)}
    (hmap : map.Every (p m)) : AllEntries p (putMap maps m map) := by
  intro n map' hn
  unfold Vm.putMap at hn
  split_ifs at hn with hnm
  · cases hn
    exact hnm ▸ hmap
  · exact hp n map' hn

namespace Space

/-! ## Rules -/

/-- From holds `H` the computation leads to the holds `H'`, which may depend on what it returns. A
property of the maps is kept. -/
def Takes {α : Type} (J : Maps E O M → Prop) (H : M → Hold) (x : Space E O M α)
    (H' : α → M → Hold) : Prop :=
  ∀ w, J w.maps → w.held = H → Ensures x (fun a w' ↦ J w'.maps ∧ w'.held = H' a) w

/-- The computation leaves all holds as they are. -/
def Quiet {α : Type} (J : Maps E O M → Prop) (x : Space E O M α) : Prop :=
  ∀ H, Takes J H x fun _ ↦ H

variable {α β : Type} {J : Maps E O M → Prop} {p : M → MapEntry E (Ref O M) → Prop}
  {H : M → Hold} {x y : Space E O M α} {f : α → Space E O M β} {H' : α → M → Hold}
  {K' : β → M → Hold}

namespace Takes

theorem bind (hx : Takes J H x H') (hf : ∀ a, Takes J (H' a) (f a) K') :
    Takes J H (x >>= f) K' :=
  fun w hJ hw ↦ Ensures.bind (hx w hJ hw) fun a w' hw' ↦ hf a w' hw'.1 hw'.2

theorem pure {a : α} (ha : H' a = H) : Takes J H (Pure.pure a : Space E O M α) H' :=
  fun _ hJ hw ↦ Ensures.pure_iff.2 ⟨hJ, hw.trans ha.symm⟩

theorem throw (fault : Fault) : Takes J H (MonadExcept.throw fault : Space E O M α) H' :=
  fun _ _ _ ↦ Ensures.throw_iff.2 trivial

theorem ite {c : Prop} [Decidable c] (hx : c → Takes J H x H') (hy : ¬ c → Takes J H y H') :
    Takes J H (if c then x else y) H' :=
  fun w hJ hw ↦ Ensures.ite_iff.2 ⟨fun hc ↦ hx hc w hJ hw, fun hc ↦ hy hc w hJ hw⟩

end Takes

namespace Quiet

theorem bind (hx : Quiet J x) (hf : ∀ a, Quiet J (f a)) : Quiet J (x >>= f) :=
  fun H ↦ Takes.bind (hx H) fun a ↦ hf a H

theorem pure (a : α) : Quiet J (Pure.pure a : Space E O M α) :=
  fun _ ↦ Takes.pure rfl

theorem ite {c : Prop} [Decidable c] (hx : c → Quiet J x) (hy : ¬ c → Quiet J y) :
    Quiet J (if c then x else y) :=
  fun H ↦ Takes.ite (fun hc ↦ hx hc H) fun hc ↦ hy hc H

theorem throw (fault : Fault) : Quiet J (MonadExcept.throw fault : Space E O M α) :=
  fun _ ↦ Takes.throw fault

theorem lift (y : Except Fault α) : Quiet J (StateT.lift y : Space E O M α) :=
  fun _ _ hJ hw ↦ Ensures.lift_iff.2 fun _ _ ↦ ⟨hJ, hw⟩

theorem read : Quiet J (get : Space E O M (World E O M)) :=
  fun _ _ hJ hw ↦ Ensures.get_iff.2 ⟨hJ, hw⟩

end Quiet

/-! ## Operations on the maps -/

theorem quiet_choose : Quiet J (choose : Space E O M Bool) := by
  refine Quiet.bind Quiet.read fun w ↦ ?_
  rcases w.choices with _ | ⟨choice, choices⟩
  · exact Quiet.throw _
  · exact Quiet.bind (fun _ _ hJ hw ↦ Ensures.modify_iff.2 ⟨hJ, hw⟩) fun _ ↦ Quiet.pure _

theorem quiet_mayPanic (message : String) : Quiet J (mayPanic message : Space E O M Unit) :=
  Quiet.bind quiet_choose fun _ ↦ Quiet.ite (fun _ ↦ Quiet.throw _) fun _ ↦ Quiet.pure _

theorem quiet_pmapProtect (m : M) (start endAddr : VmOffset) (prot : ℕ) :
    Quiet J (pmapProtect m start endAddr prot : Space E O M Unit) :=
  fun _ _ hJ hw ↦ Ensures.modify_iff.2 ⟨hJ, hw⟩

theorem ensures_getMap (m : M) (w : World E O M) :
    Ensures (getMap m) (fun map w' ↦ w.maps m = some map ∧ w' = w) w := by
  unfold getMap
  rw [Ensures.bind_iff, Ensures.get_iff]
  rcases hm : w.maps m with _ | map
  · exact Ensures.throw_iff.2 trivial
  · exact Ensures.pure_iff.2 ⟨rfl, rfl⟩

theorem quiet_getMap (m : M) : Quiet J (getMap m : Space E O M (VmMap E (Ref O M))) := by
  intro H w hJ hw
  refine (ensures_getMap m w).mono fun map w' hmap ↦ ?_
  obtain ⟨-, rfl⟩ := hmap
  exact ⟨hJ, hw⟩

theorem quiet_turnsOf (m : M) : Quiet J (turnsOf m : Space E O M ℕ) :=
  Quiet.bind (quiet_getMap m) fun _ ↦ Quiet.pure _

theorem ensures_innerMap (e : MapEntry E (Ref O M)) (w : World E O M) :
    Ensures (innerMap e) (fun m w' ↦ e.object = some (.map m) ∧ w' = w) w := by
  unfold innerMap
  rcases e.object with _ | ⟨o⟩ | ⟨m⟩
  · exact Ensures.throw_iff.2 trivial
  · exact Ensures.throw_iff.2 trivial
  · exact Ensures.pure_iff.2 ⟨rfl, rfl⟩

theorem quiet_innerMap (e : MapEntry E (Ref O M)) : Quiet J (innerMap e : Space E O M M) := by
  intro H w hJ hw
  refine (ensures_innerMap e w).mono fun m w' hm ↦ ?_
  obtain ⟨-, rfl⟩ := hm
  exact ⟨hJ, hw⟩

section

variable [LinearOrder M]

/-- An operation on a map, if it keeps the property of the maps. -/
theorem quiet_onMap {m : M} {g : VmMap E (Ref O M) → Except Fault (α × VmMap E (Ref O M))}
    (hg : ∀ maps map a map', J maps → maps m = some map → g map = .ok (a, map') →
      J (putMap maps m map')) : Quiet J (onMap m g) := by
  intro H w hJ hw
  refine Ensures.bind (ensures_getMap m w) fun map w' hmap ↦ ?_
  obtain ⟨hm, rfl⟩ := hmap
  have hlift : Ensures (StateT.lift (g map) : Space E O M _)
      (fun q w'' ↦ g map = .ok q ∧ w'' = w') w' := Ensures.lift_iff.2 fun _ hq ↦ ⟨hq, rfl⟩
  refine Ensures.bind hlift fun q w'' hq ↦ ?_
  obtain ⟨a, map'⟩ := q
  obtain ⟨hq, rfl⟩ := hq
  have hset : Ensures (setMap m map') (fun _ w ↦ J w.maps ∧ w.held = H) w'' :=
    Ensures.modify_iff.2 ⟨hg w''.maps map a map' hJ hm hq, hw⟩
  exact Ensures.bind hset fun _ _ hend ↦ Ensures.pure_iff.2 hend

theorem quiet_modifyEntry_of [DecidableEq E] {m : M} {id : E}
    {edit : MapEntry E (Ref O M) → MapEntry E (Ref O M)}
    (hedit : ∀ maps map, J maps → maps m = some map → J (putMap maps m (map.modify id edit))) :
    Quiet J (modifyEntry m id edit) := by
  intro H w hJ hw
  refine Ensures.bind (ensures_getMap m w) fun map w' hmap ↦ ?_
  obtain ⟨hm, rfl⟩ := hmap
  exact Ensures.modify_iff.2 ⟨hedit w'.maps map hJ hm, hw⟩

variable [DecidableEq E]

omit [LinearOrder M] in
theorem ensures_entryOf (m : M) (id : E) (w : World E O M) :
    Ensures (entryOf m id)
      (fun e w' ↦ (∃ map, w.maps m = some map ∧ map.entry id = .ok e) ∧ w' = w) w := by
  refine Ensures.bind (ensures_getMap m w) fun map w' hmap ↦ ?_
  obtain ⟨hm, rfl⟩ := hmap
  exact Ensures.lift_iff.2 fun e he ↦ ⟨⟨map, hm, he⟩, rfl⟩

omit [LinearOrder M] in
theorem quiet_entryOf (m : M) (id : E) : Quiet J (entryOf m id : Space E O M _) :=
  Quiet.bind (quiet_getMap m) fun _ ↦ Quiet.lift _

omit [LinearOrder M] in
theorem quiet_nextOf (m : M) (entry : Option E) : Quiet J (nextOf m entry : Space E O M _) :=
  Quiet.bind (quiet_getMap m) fun _ ↦ Quiet.pure _

theorem quiet_modifyEntry {m : M} (id : E) {edit : MapEntry E (Ref O M) → MapEntry E (Ref O M)}
    (hedit : ∀ e, p m e → p m (edit e)) : Quiet (AllEntries p) (modifyEntry m id edit) :=
  quiet_modifyEntry_of fun _ map hp hm ↦ hp.putMap ((hp m map hm).modify id hedit)

theorem quiet_vmMapLookupEntry (m : M) (address : VmOffset) :
    Quiet (AllEntries p) (vmMapLookupEntry m address : Space E O M _) := by
  refine quiet_onMap fun maps map a map' hp hm hok ↦ hp.putMap ?_
  obtain ⟨⟨found, entry, map₁⟩, hlookup, hok⟩ := exists_of_bind_ok hok
  have hmap₁ := VmMap.every_of_entries (hp m map hm) (VmMap.entries_of_lookup hlookup)
  cases hok
  exact hmap₁

theorem quiet_hintOrLookup (m : M) (vaddr : VmOffset) :
    Quiet (AllEntries p) (hintOrLookup m vaddr : Space E O M _) := by
  have hlookup : Quiet (AllEntries p) (do
      let found ← vmMapLookupEntry m vaddr
      return if found.1 then found.2 else none : Space E O M (Option E)) :=
    Quiet.bind (quiet_vmMapLookupEntry m vaddr) fun _ ↦ Quiet.pure _
  refine Quiet.bind (quiet_getMap m) fun map ↦ ?_
  rcases map.hint with _ | id
  · exact hlookup
  · exact Quiet.bind (quiet_entryOf m id) fun _ ↦
      Quiet.ite (fun _ ↦ Quiet.pure _) fun _ ↦ hlookup

theorem quiet_vmMapClipEnd (env : Env E O M) {m : M} (hq : Uniform (p m)) (id : E)
    (endAddr : VmOffset) : Quiet (AllEntries p) (vmMapClipEnd env m id endAddr) := by
  refine quiet_onMap fun maps map a map' hp hm hok ↦ hp.putMap ?_
  obtain ⟨map₁, hclip, hok⟩ := exists_of_bind_ok hok
  cases hok
  exact (hp m map hm).clipEnd hq hclip

theorem quiet_vmMapSimplify [DecidableEq O] {m : M} (hq : Uniform (p m)) (start : VmOffset) :
    Quiet (AllEntries p) (vmMapSimplify m start : Space E O M Unit) := by
  refine quiet_onMap fun maps map a map' hp hm hok ↦ hp.putMap ?_
  obtain ⟨map₁, hsimplify, hok⟩ := exists_of_bind_ok hok
  cases hok
  exact (hp m map hm).vmMapSimplify hq hsimplify

theorem quiet_shadowEntry (env : Env E O M) {m : M} (id : E)
    (hedit : ∀ e o, p m e →
      p m { e with object := some (.object o), offset := 0, needsCopy := false }) :
    Quiet (AllEntries p) (shadowEntry env m id) :=
  Quiet.bind Quiet.read fun _ ↦ quiet_modifyEntry id fun e he ↦ hedit e _ he

theorem quiet_allocateEntry (env : Env E O M) {m : M} (id : E)
    (hedit : ∀ e o, p m e → p m { e with object := some (.object o), offset := 0 }) :
    Quiet (AllEntries p) (allocateEntry env m id) :=
  Quiet.bind Quiet.read fun _ ↦ quiet_modifyEntry id fun e he ↦ hedit e _ he

omit [LinearOrder M] in
/-- A loop over the entries of a region, if its body leaves the holds alone. -/
theorem Takes.loopent (m : M) (endAddr : VmOffset) {body : E → Space E O M (Option α)}
    (hbody : ∀ id, Takes J H (body id) fun _ ↦ H) (turns : ℕ) (entry : Option E) :
    Takes J H (loopent m endAddr body turns entry) fun _ ↦ H := by
  induction turns generalizing entry with
  | zero =>
    unfold Space.loopent
    exact Takes.throw _
  | succ turns ih =>
    cases entry with
    | none => exact Takes.pure rfl
    | some id =>
      refine Takes.bind (quiet_entryOf m id H) fun e ↦ Takes.ite (fun _ ↦ ?_) fun _ ↦
        Takes.pure rfl
      refine Takes.bind (hbody id) fun result ↦ ?_
      cases result with
      | none => exact Takes.bind (quiet_nextOf m _ H) fun next ↦ ih next
      | some a => exact Takes.pure rfl

end

/-! ## Operations on the locks -/

variable [LinearOrder M]

theorem Takes.onHold {m : M} {g : Hold → Except Fault (α × Hold)}
    (hg : ∀ a h, g (H m) = .ok (a, h) → setHold H m h = H' a) :
    Takes J H (onHold m g : Space E O M α) H' := by
  intro w hJ hw
  have hget : Ensures (get : Space E O M (World E O M)) (fun v v' ↦ v = w ∧ v' = w) w :=
    Ensures.get_iff.2 ⟨rfl, rfl⟩
  refine Ensures.bind hget fun v w₁ hv ↦ ?_
  obtain ⟨rfl, rfl⟩ := hv
  have hlift : Ensures (StateT.lift (g (w₁.held m)) : Space E O M _)
      (fun p w' ↦ g (H m) = .ok p ∧ w' = w₁) w₁ :=
    Ensures.lift_iff.2 fun p hp ↦ ⟨hw ▸ hp, rfl⟩
  refine Ensures.bind hlift fun q w' hq ↦ ?_
  obtain ⟨a, h⟩ := q
  obtain ⟨hq, rfl⟩ := hq
  have hheld : Ensures (modify fun w ↦
      { w with held := fun n ↦ if n = m then h else w.held n } : Space E O M PUnit)
      (fun _ w'' ↦ J w''.maps ∧ w''.held = setHold H m h) w' :=
    Ensures.modify_iff.2 ⟨hJ, congrArg (fun held ↦ setHold held m h) hw⟩
  exact Ensures.bind hheld fun _ w'' hw'' ↦
    Ensures.pure_iff.2 ⟨hw''.1, hw''.2.trans (hg a h hq)⟩

theorem takes_vmMapLock (m : M) :
    Takes J H (vmMapLock m : Space E O M Unit) fun _ ↦ locked H m := by
  refine Takes.onHold fun a h hok ↦ ?_
  obtain ⟨h', hlock, hok⟩ := exists_of_bind_ok hok
  cases hok
  exact congrArg _ (Hold.lockWrite_ok hlock)

theorem takes_vmMapUnlock {m : M} (hplain : (H m).Plain) :
    Takes J (locked H m) (vmMapUnlock m : Space E O M Unit) fun _ ↦ H := by
  refine Takes.onHold fun a h hok ↦ ?_
  cases hok
  rw [locked, setHold_same, setHold_setHold, Hold.lockDone_addWrite hplain, setHold_self]

theorem takes_vmMapLockRead (m : M) :
    Takes J H (vmMapLockRead m : Space E O M Unit) fun _ ↦ shared H m := by
  refine Takes.onHold fun a h hok ↦ ?_
  obtain ⟨h', hlock, hok⟩ := exists_of_bind_ok hok
  cases hok
  exact congrArg _ (Hold.lockRead_ok hlock)

theorem takes_vmMapUnlockRead (m : M) :
    Takes J (shared H m) (vmMapUnlock m : Space E O M Unit) fun _ ↦ H := by
  refine Takes.onHold fun a h hok ↦ ?_
  cases hok
  rw [shared, setHold_same, setHold_setHold, Hold.lockDone_addRead, setHold_self]

theorem takes_lockReadToWrite (m : M) :
    Takes J (shared H m) (lockReadToWrite m : Space E O M Bool)
      fun lost ↦ if lost then H else locked H m := by
  refine Takes.bind (quiet_choose _) fun asked ↦ Takes.onHold fun lost h hok ↦ ?_
  rw [shared, setHold_same] at hok
  rw [shared, setHold_setHold, Hold.lockReadToWrite_ok hok]
  cases lost with
  | false => rfl
  | true => exact setHold_self H m

theorem takes_lockWriteToRead {m : M} (hdepth : (H m).recursive = false → (H m).depth = 0) :
    Takes J (locked H m) (lockWriteToRead m : Space E O M Unit) fun _ ↦ shared H m := by
  refine Takes.onHold fun a h hok ↦ ?_
  cases hok
  rw [locked, setHold_same, setHold_setHold, Hold.lockWriteToRead_addWrite hdepth, shared]

theorem takes_lockSetRecursive (m : M) :
    Takes J H (lockSetRecursive m : Space E O M Unit) fun _ ↦ recursed H m := by
  refine Takes.onHold fun a h hok ↦ ?_
  obtain ⟨h', hset, hok⟩ := exists_of_bind_ok hok
  cases hok
  unfold Hold.lockSetRecursive at hset
  split_ifs at hset
  cases hset
  rfl

theorem takes_lockClearRecursive {m : M} (hexclusive : (H m).Exclusive) :
    Takes J (recursed H m) (lockClearRecursive m : Space E O M Unit) fun _ ↦ H := by
  refine Takes.onHold fun a h hok ↦ ?_
  obtain ⟨h', hclear, hok⟩ := exists_of_bind_ok hok
  cases hok
  obtain ⟨h₀, hplain, hheld⟩ := hexclusive
  rw [recursed, setHold_same, hheld] at hclear
  rw [recursed, setHold_setHold, Hold.lockClearRecursive_ok hplain hclear, ← hheld, setHold_self]

end Space

end Bsd386.Kern.Vm
