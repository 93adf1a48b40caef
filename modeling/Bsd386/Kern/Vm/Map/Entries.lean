import Bsd386.Kern.Vm.Map.Basic
import Bsd386.Lib.Partial

/-!
# What all entries have in common

A property of entries that does not depend on where they start and end is kept by the operations
that divide, join and remove entries. No assumption is made about the list.
-/

namespace Bsd386.Kern.Vm

variable {E O : Type}

/-- The property does not depend on the address of an entry, its range or its offset. -/
def Uniform (q : MapEntry E O → Prop) : Prop :=
  ∀ (e : MapEntry E O) (id : E) (start endAddr offset : VmOffset), q e →
    q { e with id, start, endAddr, offset }

namespace VmMap

/-- All entries have the property. -/
def Every (q : MapEntry E O → Prop) (map : VmMap E O) : Prop := ∀ e ∈ map.entries, q e

variable {q : MapEntry E O → Prop} {map map' : VmMap E O} {create : Create E O} {id : E}
  {start endAddr : VmOffset}

theorem every_of_entries (h : map.Every q) (hentries : map'.entries = map.entries) :
    map'.Every q := fun e he ↦ h e (hentries ▸ he)

variable [DecidableEq E]

theorem mem_of_entry {e : MapEntry E O} (hentry : map.entry id = .ok e) :
    e ∈ map.entries ∧ e.id = id := by
  unfold VmMap.entry at hentry
  cases hfind : map.entries.find? (·.id = id) with
  | none =>
    rw [hfind] at hentry
    cases hentry
  | some f =>
    rw [hfind] at hentry
    cases hentry
    exact ⟨List.mem_of_find?_eq_some hfind, by simpa using List.find?_some hfind⟩

theorem Every.entry (h : map.Every q) {e : MapEntry E O} (hentry : map.entry id = .ok e) : q e :=
  h e (mem_of_entry hentry).1

/-- An entry of a map in which one entry has been assigned to. -/
theorem entry_modify {id' : E} {edit : MapEntry E O → MapEntry E O}
    (hid : ∀ e, (edit e).id = e.id) :
    (map.modify id edit).entry id' =
      (map.entry id').map fun e ↦ if e.id = id then edit e else e := by
  have hsame : ((fun e : MapEntry E O ↦ decide (e.id = id')) ∘
      fun e ↦ if e.id = id then edit e else e) = fun e ↦ decide (e.id = id') := by
    funext e
    dsimp only [Function.comp]
    split_ifs
    · rw [hid]
    · rfl
  unfold VmMap.entry VmMap.modify
  dsimp only
  rw [List.find?_map, hsame]
  cases map.entries.find? (fun e ↦ decide (e.id = id')) with
  | none => rfl
  | some e => rfl

theorem Every.modify (h : map.Every q) (id : E) {edit : MapEntry E O → MapEntry E O}
    (hedit : ∀ e, q e → q (edit e)) : (map.modify id edit).Every q := by
  intro e he
  obtain ⟨f, hf, rfl⟩ := List.mem_map.1 he
  split_ifs
  · exact hedit f (h f hf)
  · exact h f hf

theorem Every.link (h : map.Every q) {new : MapEntry E O} (hnew : q new) (p : Option E) :
    (map.link p new).Every q := by
  intro e he
  cases p with
  | none =>
    rcases List.mem_cons.1 he with rfl | he
    · exact hnew
    · exact h e he
  | some id =>
    obtain ⟨f, hf, he⟩ := List.mem_flatMap.1 he
    split_ifs at he
    · rcases List.mem_cons.1 he with rfl | he
      · exact h e hf
      · exact List.mem_singleton.1 he ▸ hnew
    · exact List.mem_singleton.1 he ▸ h f hf

theorem Every.unlink (h : map.Every q) (id : E) : (map.unlink id).Every q :=
  fun e he ↦ h e (List.mem_filter.1 he).1

theorem entries_of_lookup {address : VmOffset} {found : Bool} {entry : Option E}
    (hok : map.vmMapLookupEntry address = .ok (found, entry, map')) :
    map'.entries = map.entries := by
  obtain ⟨l, -, hok⟩ := exists_of_bind_ok hok
  cases l with
  | nil =>
    cases hok
    rfl
  | cons cur rest =>
    dsimp only at hok
    split_ifs at hok
    · cases hok
      rfl
    · cases hok
      rfl
    · cases hok
      rfl

theorem Every.clipStart (hq : Uniform q) (h : map.Every q)
    (hok : map.clipStart create id start = .ok map') : map'.Every q := by
  obtain ⟨e, hentry, hok⟩ := exists_of_bind_ok hok
  split_ifs at hok
  · obtain ⟨f, hentry', hok⟩ := exists_of_bind_ok hok
    cases hok
    exact (h.modify id fun g hg ↦ hq g _ _ _ _ hg).link (hq f _ _ _ _ (h.entry hentry')) _
  · cases hok
    exact h

theorem Every.clipEnd (hq : Uniform q) (h : map.Every q)
    (hok : map.clipEnd create id endAddr = .ok map') : map'.Every q := by
  obtain ⟨e, hentry, hok⟩ := exists_of_bind_ok hok
  split_ifs at hok
  · obtain ⟨f, hentry', hok⟩ := exists_of_bind_ok hok
    cases hok
    exact (h.modify id fun g hg ↦ hq g _ _ _ _ hg).link (hq f _ _ _ _ (h.entry hentry')) _
  · cases hok
    exact h

theorem Every.lockClipStart (hq : Uniform q) (h : map.Every q) {lo hi : VmOffset}
    {entry : Option E} (hok : map.lockClipStart create start endAddr = .ok (lo, hi, entry, map')) :
    map'.Every q := by
  obtain ⟨⟨found, p, map₁⟩, hlookup, hok⟩ := exists_of_bind_ok hok
  have h₁ : map₁.Every q := every_of_entries h (entries_of_lookup hlookup)
  cases found with
  | false =>
    cases hok
    exact h₁
  | true =>
    cases p with
    | none =>
      cases hok
      exact h₁
    | some id =>
      obtain ⟨map₂, hclip, hok⟩ := exists_of_bind_ok hok
      cases hok
      exact h₁.clipStart hq hclip

theorem Every.loopent (hq : Uniform q) (turns : ℕ) (h : map.Every q)
    {edit : MapEntry E O → MapEntry E O} (hedit : ∀ e, q e → q (edit e)) {entry : Option E}
    (hok : VmMap.loopent create edit endAddr turns entry map = .ok map') : map'.Every q := by
  induction turns generalizing map entry with
  | zero => cases hok
  | succ turns ih =>
    cases entry with
    | none =>
      cases hok
      exact h
    | some id =>
      obtain ⟨e, -, hok⟩ := exists_of_bind_ok hok
      split_ifs at hok
      · obtain ⟨map₁, hclip, hok⟩ := exists_of_bind_ok hok
        exact ih ((h.clipEnd hq hclip).modify id hedit) hok
      · cases hok
        exact h

theorem Every.clipRegion (hq : Uniform q) (h : map.Every q) {edit : MapEntry E O → MapEntry E O}
    (hedit : ∀ e, q e → q (edit e)) (hok : map.clipRegion create edit start endAddr = .ok map') :
    map'.Every q := by
  obtain ⟨⟨lo, hi, entry, map₁⟩, hclip, hok⟩ := exists_of_bind_ok hok
  exact (h.lockClipStart hq hclip).loopent hq _ hedit hok

theorem Every.simplifyWith [DecidableEq O] (hq : Uniform q) (h : map.Every q)
    {thisEntry prevEntry : E} (hok : map.simplifyWith thisEntry prevEntry start = .ok map') :
    map'.Every q := by
  obtain ⟨e, -, hok⟩ := exists_of_bind_ok hok
  obtain ⟨f, -, hok⟩ := exists_of_bind_ok hok
  by_cases hjoin : f.endAddr = start ∧ map.isMainMap ∧ Alike f e
  · rw [if_pos hjoin] at hok
    have hunlink : (VmMap.unlink { map with
        firstFree := if map.firstFree = some thisEntry then some prevEntry else map.firstFree
        hint := some prevEntry } thisEntry).Every q := Every.unlink h thisEntry
    cases hok
    exact hunlink.modify prevEntry fun g hg ↦ hq g _ _ _ _ hg
  · rw [if_neg hjoin] at hok
    cases hok
    exact h

theorem Every.vmMapSimplify [DecidableEq O] (hq : Uniform q) (h : map.Every q)
    (hok : map.vmMapSimplify start = .ok map') : map'.Every q := by
  obtain ⟨⟨found, p, map₁⟩, hlookup, hok⟩ := exists_of_bind_ok hok
  have h₁ : map₁.Every q := every_of_entries h (entries_of_lookup hlookup)
  cases found with
  | false =>
    cases hok
    exact h₁
  | true =>
    cases p with
    | none =>
      cases hok
      exact h₁
    | some thisEntry =>
      dsimp only at hok
      rcases Option.eq_none_or_eq_some (map₁.prev (some thisEntry)) with hprev | ⟨p, hprev⟩
      · rw [hprev] at hok
        cases hok
        exact h₁
      · rw [hprev] at hok
        exact h₁.simplifyWith hq hok

/-! ## Insertion and deletion -/

theorem Every.insertAfter (h : map.Every q) {object : Option O} {offset : VmOffset}
    (hnew : ∀ memory, q (map.newEntry memory object offset start endAddr)) {prevEntry : Option E}
    (hok : map.insertAfter create prevEntry object offset start endAddr = .ok map') :
    map'.Every q := by
  have hlink := h.link (hnew (map.entryCreate create)) prevEntry
  unfold VmMap.insertAfter at hok
  obtain ⟨bound, -, hok⟩ := exists_of_bind_ok hok
  split_ifs at hok
  · cases hok
    exact hlink
  · cases hok
    exact hlink

theorem Every.insertBehind (hq : Uniform q) (h : map.Every q) {object : Option O}
    {offset : VmOffset} {coalesce : Coalesce O} {prevEntry : Option E}
    (hnew : ∀ memory, q (map.newEntry memory object offset start endAddr))
    (hok : map.insertBehind create coalesce prevEntry object offset start endAddr = .ok map') :
    map'.Every q := by
  cases prevEntry with
  | none => exact h.insertAfter hnew hok
  | some id =>
    obtain ⟨e, -, hok⟩ := exists_of_bind_ok hok
    split_ifs at hok
    · have hmodify : (map.modify id fun e ↦ { e with endAddr }).Every q :=
        h.modify id fun g hg ↦ hq g _ _ _ _ hg
      cases hok
      exact hmodify
    · exact h.insertAfter hnew hok

theorem Every.vmMapInsert (hq : Uniform q) (h : map.Every q) {object : Option O}
    {offset : VmOffset} {coalesce : Coalesce O} {result : KernReturn}
    (hnew : ∀ (map : VmMap E O) memory, q (map.newEntry memory object offset start endAddr))
    (hok : map.vmMapInsert create coalesce object offset start endAddr = .ok (result, map')) :
    map'.Every q := by
  unfold VmMap.vmMapInsert at hok
  split_ifs at hok
  · cases hok
    exact h
  · obtain ⟨⟨found, p, map₁⟩, hlookup, hok⟩ := exists_of_bind_ok hok
    have h₁ : map₁.Every q := every_of_entries h (entries_of_lookup hlookup)
    dsimp only at hok
    split_ifs at hok
    · cases hok
      exact h₁
    · obtain ⟨bound, -, hok⟩ := exists_of_bind_ok hok
      split_ifs at hok
      · cases hok
        exact h₁
      · obtain ⟨map₂, hbehind, hok⟩ := exists_of_bind_ok hok
        cases hok
        exact h₁.insertBehind hq (hnew map₁) hbehind

theorem Every.deleteLoop (hq : Uniform q) (turns : ℕ) (h : map.Every q) {entry : Option E}
    (hok : VmMap.deleteLoop create endAddr turns entry map = .ok map') : map'.Every q := by
  induction turns generalizing map entry with
  | zero => cases hok
  | succ turns ih =>
    cases entry with
    | none =>
      cases hok
      exact h
    | some id =>
      obtain ⟨e, -, hok⟩ := exists_of_bind_ok hok
      split_ifs at hok
      · obtain ⟨map₁, hclip, hok⟩ := exists_of_bind_ok hok
        obtain ⟨⟨next, map₂⟩, hdelete, hok⟩ := exists_of_bind_ok hok
        obtain ⟨f, -, hdelete⟩ := exists_of_bind_ok hdelete
        have h₂ : map₂.Every q := by
          cases hdelete
          exact Every.unlink (h.clipEnd hq hclip) id
        exact ih h₂ hok
      · cases hok
        exact h

theorem Every.vmMapDelete (hq : Uniform q) (h : map.Every q)
    (hok : map.vmMapDelete create start endAddr = .ok map') : map'.Every q := by
  obtain ⟨⟨entry, map₁⟩, hfrom, hok⟩ := exists_of_bind_ok hok
  obtain ⟨bound, -, hok⟩ := exists_of_bind_ok hok
  have h₁ : map₁.Every q := by
    obtain ⟨⟨found, p, map₂⟩, hlookup, hfrom⟩ := exists_of_bind_ok hfrom
    have h₂ : map₂.Every q := every_of_entries h (entries_of_lookup hlookup)
    cases found with
    | false =>
      cases hfrom
      exact h₂
    | true =>
      cases p with
      | none =>
        cases hfrom
        exact h₂
      | some id =>
        obtain ⟨map₃, hclip, hfrom⟩ := exists_of_bind_ok hfrom
        have h₃ := h₂.clipStart hq hclip
        cases hfrom
        exact h₃
  refine Every.deleteLoop hq _ ?_ hok
  exact h₁

end VmMap

end Bsd386.Kern.Vm
