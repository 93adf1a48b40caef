import Bsd386.Kern.Fault
import Bsd386.Lib.Linked

/-!
# Queue insertion and removal

The kernel's inline functions `insque` and `remque`, over a memory of linked nodes.
-/

namespace Bsd386.Kern

open Function

variable {N : Type*} [DecidableEq N] {m : Links N} {a b e x : N} {l : List N}

/-- `_insque`. -/
def insque (m : Links N) (element queue : N) : Except Fault (Links N) := do
  let m := { m with next := update m.next element (m.next queue) }
  let m := { m with next := update m.next queue (some element) }
  let m := { m with prev := update m.prev element (some queue) }
  let after ← deref (m.next element)
  return { m with prev := update m.prev after (some element) }

/-- `_remque`. -/
def remque (m : Links N) (element : N) : Except Fault (Links N) := do
  let after ← deref (m.next element)
  let m := { m with prev := update m.prev after (m.prev element) }
  let before ← deref (m.prev element)
  let m := { m with next := update m.next before (m.next element) }
  return { m with prev := update m.prev element none }

/-- Insertion after a node joins it to the new one, and the new one to its successor. -/
theorem insque_eq (hb : m.Linked a b) (he : e ≠ a) :
    insque m e a = .ok ((m.join a e).join e b) := by
  simp only [insque, hb.1, update_of_ne he, update_self, deref]
  simp only [Links.join, update_comm he]
  rfl

/-- Removal joins the neighbours. -/
theorem remque_eq (ha : m.Linked a e) (hb : m.Linked e b) :
    remque m e = .ok { m.join a b with prev := update (m.join a b).prev e none } := by
  have hprev : update m.prev b (some a) e = some a := by
    by_cases heb : e = b
    · rw [heb, update_self]
    · rw [update_of_ne heb, ha.2]
  unfold remque
  rw [hb.1]
  change (do
    let before ← deref (update m.prev b (m.prev e) e)
    return { m with
      next := update m.next before (m.next e)
      prev := update (update m.prev b (m.prev e)) e none }) = _
  rw [ha.2, hprev, hb.1]
  rfl

/-- Insertion at the head of a ring. Rings elsewhere stay. -/
theorem insque_spec (h : m.Ring x l) (he : e ∉ x :: l) : ∃ m', insque m e x = .ok m' ∧
    m'.Ring x (e :: l) ∧
    ∀ y k, m.Ring y k → e ∉ y :: k → (y :: k).Disjoint (x :: l) → m'.Ring y k := by
  obtain ⟨b, hb, hlink⟩ : ∃ b ∈ x :: l, m.Linked x b := by
    cases l with
    | nil => exact ⟨x, List.mem_cons_self .., (List.isChain_cons_cons.1 h.2).1⟩
    | cons b l => exact ⟨b, by simp, (List.isChain_cons_cons.1 h.2).1⟩
  have hne : e ≠ x := fun hex ↦ he (hex ▸ List.mem_cons_self ..)
  refine ⟨_, insque_eq hlink hne, h.insertHead he hlink, fun y k hk hek hdisjoint ↦ ?_⟩
  exact (hk.join_of_notMem (fun hx ↦ hdisjoint hx (List.mem_cons_self ..)) hek).join_of_notMem hek
    (fun hbk ↦ hdisjoint hbk hb)

/-- What `remque` does to the rings without the removed node and its neighbours. -/
theorem ring_of_remque (hk : m.Ring x l) (ha : a ∉ x :: l) (hb : b ∉ x :: l) (he : e ∉ x :: l) :
    Links.Ring { m.join a b with prev := update (m.join a b).prev e none } x l :=
  (hk.join_of_notMem ha hb).congr (fun _ _ ↦ rfl)
    fun _ hy ↦ update_of_ne (ne_of_mem_of_not_mem hy he) ..

/-- Removal from a ring. Rings elsewhere stay. -/
theorem remque_spec (h : m.Ring x l) (he : e ∈ l) : ∃ m', remque m e = .ok m' ∧
    m'.Ring x (l.erase e) ∧ ∀ y k, m.Ring y k → (y :: k).Disjoint (x :: l) → m'.Ring y k := by
  obtain ⟨l₁, l₂, -, rfl, herase⟩ := List.exists_erase_eq he
  rw [herase]
  obtain ⟨s, t, a, b, hs, ht, ha, hb⟩ := h.neighbours
  have hmem : e ∈ x :: (l₁ ++ e :: l₂) := by simp
  have haMem : a ∈ x :: (l₁ ++ e :: l₂) := by
    have haList : a ∈ x :: l₁ := hs ▸ by simp
    simp only [List.mem_cons, List.mem_append] at haList ⊢
    tauto
  have hbMem : b ∈ x :: (l₁ ++ e :: l₂) := by
    have hbList : b ∈ l₂ ++ [x] := ht ▸ by simp
    simp only [List.mem_cons, List.mem_append, List.not_mem_nil, or_false] at hbList ⊢
    tauto
  refine ⟨_, remque_eq ha hb, ?_, fun y k hk hdisjoint ↦ ring_of_remque hk
    (fun hak ↦ hdisjoint hak haMem) (fun hbk ↦ hdisjoint hbk hbMem) (fun hek ↦ hdisjoint hek hmem)⟩
  have hperm : (x :: (l₁ ++ e :: l₂)).Perm (e :: x :: (l₁ ++ l₂)) :=
    (List.perm_middle.cons x).trans (.swap e x _)
  have hnotin := (List.nodup_cons.1 (hperm.nodup_iff.1 h.1)).1
  exact (h.remove ha hb).congr (fun _ _ ↦ rfl)
    fun _ hy ↦ update_of_ne (ne_of_mem_of_not_mem hy hnotin) ..

/-- Removal of a node that is alone on its ring. Rings elsewhere stay. -/
theorem remque_alone (h : m.Ring e []) : ∃ m', remque m e = .ok m' ∧
    ∀ y k, m.Ring y k → e ∉ y :: k → m'.Ring y k := by
  have hlink : m.Linked e e := (List.isChain_cons_cons.1 h.2).1
  exact ⟨_, remque_eq hlink hlink, fun y k hk hek ↦ ring_of_remque hk hek hek hek⟩

end Bsd386.Kern
