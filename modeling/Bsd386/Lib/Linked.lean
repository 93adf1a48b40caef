import Mathlib.Data.List.Chain
import Mathlib.Logic.Function.Basic

/-!
# Doubly linked lists in memory

The memory of a doubly linked list is a pair of pointers for every node. A run of nodes is linked
when each points forward to its successor and is pointed back at by it; a ring is a run that starts
and ends at a head node. Removing and inserting a node are joins of two neighbours, and each lemma
says which list is in memory afterwards.
-/

namespace Bsd386

open Function

variable {N : Type*} [DecidableEq N]

/-- The two pointers of every node; `none` is the null pointer. -/
structure Links (N : Type*) where
  next : N → Option N
  prev : N → Option N

namespace Links

variable {m : Links N} {a b e x y : N} {l l₁ l₂ : List N}

/-- The nodes point at each other. -/
def Linked (m : Links N) (a b : N) : Prop := m.next a = some b ∧ m.prev b = some a

/-- Make two nodes point at each other. -/
def join (m : Links N) (a b : N) : Links N where
  next := update m.next a (some b)
  prev := update m.prev b (some a)

omit [DecidableEq N] in
theorem Linked.next_unique (h : m.Linked a x) (h' : m.Linked a y) : x = y :=
  Option.some.inj (h.1.symm.trans h'.1)

omit [DecidableEq N] in
theorem Linked.prev_unique (h : m.Linked x b) (h' : m.Linked y b) : x = y :=
  Option.some.inj (h.2.symm.trans h'.2)

theorem linked_join (m : Links N) (a b : N) : (m.join a b).Linked a b :=
  ⟨update_self .., update_self ..⟩

theorem Linked.join (h : m.Linked x y) (hx : x ≠ a) (hy : y ≠ b) : (m.join a b).Linked x y :=
  ⟨(update_of_ne hx ..).trans h.1, (update_of_ne hy ..).trans h.2⟩

/-! ## Runs -/

/-- Successive nodes are linked. -/
def Run (m : Links N) (l : List N) : Prop := l.IsChain m.Linked

omit [DecidableEq N] in
/-- A run depends on its own nodes only. -/
theorem Run.congr {m' : Links N} (h : m.Run l) (hnext : ∀ x ∈ l, m'.next x = m.next x)
    (hprev : ∀ x ∈ l, m'.prev x = m.prev x) : m'.Run l :=
  h.imp_of_mem_imp fun x y hx hy hxy ↦ ⟨(hnext x hx).trans hxy.1, (hprev y hy).trans hxy.2⟩

/-- A node between two others is removed by joining them. -/
theorem Run.remove (h : m.Run (l₁ ++ a :: e :: b :: l₂)) (h₁ : e ∉ l₁ ++ [a]) (h₂ : e ∉ b :: l₂) :
    (m.join a b).Run (l₁ ++ a :: b :: l₂) := by
  obtain ⟨hleft, hae, hright⟩ := List.isChain_append_cons_cons.1 h
  obtain ⟨heb, hright⟩ := List.isChain_cons_cons.1 hright
  refine List.isChain_append_cons_cons.2 ⟨?_, linked_join m a b, ?_⟩
  · refine hleft.imp_of_mem_imp fun x y hx hy hxy ↦ hxy.join ?_ ?_
    · rintro rfl
      exact h₁ (hxy.next_unique hae ▸ hy)
    · rintro rfl
      exact h₁ (hxy.prev_unique heb ▸ hx)
  · refine hright.imp_of_mem_imp fun x y hx hy hxy ↦ hxy.join ?_ ?_
    · rintro rfl
      exact h₂ (hxy.next_unique hae ▸ hy)
    · rintro rfl
      exact h₂ (hxy.prev_unique heb ▸ hx)

/-- A new node is inserted between two others by joining it with both. -/
theorem Run.insert (h : m.Run (l₁ ++ a :: b :: l₂)) (h₁ : b ∉ (l₁ ++ [a]).tail) (h₂ : b ∉ l₂)
    (he₁ : e ∉ l₁ ++ [a]) (he₂ : e ∉ b :: l₂) :
    ((m.join a e).join e b).Run (l₁ ++ a :: e :: b :: l₂) := by
  obtain ⟨hleft, hab, hright⟩ := List.isChain_append_cons_cons.1 h
  have hae : a ≠ e := fun hae ↦ he₁ (by simp [hae])
  have heb : e ≠ b := fun heb ↦ he₂ (by simp [heb])
  have hkeep : ∀ x y, x ≠ e → y ≠ e → y ≠ b → m.Linked x y → ((m.join a e).join e b).Linked x y :=
    fun x y hx hye hyb hxy ↦
      (hxy.join (fun hxa ↦ hyb ((hxa ▸ hxy).next_unique hab)) hye).join hx hyb
  refine List.isChain_append_cons_cons.2 ⟨?_, (linked_join m a e).join hae heb,
    List.isChain_cons_cons.2 ⟨linked_join _ e b, ?_⟩⟩
  · refine hleft.imp_of_mem_tail_imp fun x y hx hy ↦ hkeep x y ?_ ?_ ?_
    · exact fun hxe ↦ he₁ (hxe ▸ hx)
    · exact fun hye ↦ he₁ (hye ▸ List.mem_of_mem_tail hy)
    · exact fun hyb ↦ h₁ (hyb ▸ hy)
  · refine hright.imp_of_mem_tail_imp fun x y hx hy ↦ hkeep x y ?_ ?_ ?_
    · exact fun hxe ↦ he₂ (hxe ▸ hx)
    · exact fun hye ↦ he₂ (hye ▸ List.mem_of_mem_tail hy)
    · exact fun hyb ↦ h₂ (hyb ▸ hy)

/-! ## Rings -/

/-- From the head `x` through the nodes of `l` and back. -/
def Ring (m : Links N) (x : N) (l : List N) : Prop := (x :: l).Nodup ∧ m.Run (x :: l ++ [x])

omit [DecidableEq N] in
theorem Ring.congr {m' : Links N} (h : m.Ring x l) (hnext : ∀ y ∈ x :: l, m'.next y = m.next y)
    (hprev : ∀ y ∈ x :: l, m'.prev y = m.prev y) : m'.Ring x l := by
  have hmem : ∀ y, y ∈ x :: l ++ [x] → y ∈ x :: l := by
    intro y hy
    rcases List.mem_append.1 hy with hy | hy
    · exact hy
    · exact List.mem_singleton.1 hy ▸ List.mem_cons_self ..
  exact ⟨h.1, h.2.congr (fun y hy ↦ hnext y (hmem y hy)) (fun y hy ↦ hprev y (hmem y hy))⟩

/-- A join of nodes elsewhere leaves a ring alone. -/
theorem Ring.join_of_notMem (h : m.Ring x l) (ha : a ∉ x :: l) (hb : b ∉ x :: l) :
    (m.join a b).Ring x l :=
  h.congr (fun _ hy ↦ update_of_ne (ne_of_mem_of_not_mem hy ha) ..)
    (fun _ hy ↦ update_of_ne (ne_of_mem_of_not_mem hy hb) ..)

omit [DecidableEq N] in
/-- A ring has at most one list of nodes. -/
theorem Ring.unique (h : m.Ring x l₁) (h' : m.Ring x l₂) : l₁ = l₂ := by
  have hrun : ∀ (l₁ l₂ : List N) (y : N), x ∉ l₁ → x ∉ l₂ → m.Run (y :: l₁ ++ [x]) →
      m.Run (y :: l₂ ++ [x]) → l₁ = l₂ := by
    intro l₁
    induction l₁ with
    | nil =>
      intro l₂ y _ hx₂ h₁ h₂
      cases l₂ with
      | nil => rfl
      | cons z l₂ =>
        have hz := (List.isChain_cons_cons.1 h₁).1.next_unique (List.isChain_cons_cons.1 h₂).1
        exact absurd (hz ▸ List.mem_cons_self ..) hx₂
    | cons w l₁ ih =>
      intro l₂ y hx₁ hx₂ h₁ h₂
      cases l₂ with
      | nil =>
        have hw := (List.isChain_cons_cons.1 h₁).1.next_unique (List.isChain_cons_cons.1 h₂).1
        exact absurd (hw ▸ List.mem_cons_self ..) hx₁
      | cons z l₂ =>
        obtain ⟨hw, hrest₁⟩ := List.isChain_cons_cons.1 h₁
        obtain ⟨hz, hrest₂⟩ := List.isChain_cons_cons.1 h₂
        obtain rfl := hw.next_unique hz
        rw [ih l₂ w (fun hx ↦ hx₁ (List.mem_cons_of_mem _ hx))
          (fun hx ↦ hx₂ (List.mem_cons_of_mem _ hx)) hrest₁ hrest₂]
  exact hrun l₁ l₂ x (List.nodup_cons.1 h.1).1 (List.nodup_cons.1 h'.1).1 h.2 h'.2

omit [DecidableEq N] in
/-- The neighbours of a node of a ring. -/
theorem Ring.neighbours (h : m.Ring x (l₁ ++ e :: l₂)) : ∃ s t a b, x :: l₁ = s ++ [a] ∧
    l₂ ++ [x] = b :: t ∧ m.Linked a e ∧ m.Linked e b := by
  obtain ⟨s, a, hs⟩ : ∃ s a, x :: l₁ = s ++ [a] :=
    ⟨_, _, (List.dropLast_append_getLast (List.cons_ne_nil x l₁)).symm⟩
  obtain ⟨b, t, ht⟩ : ∃ b t, l₂ ++ [x] = b :: t := by
    cases l₂ with
    | nil => exact ⟨x, [], rfl⟩
    | cons b t => exact ⟨b, t ++ [x], rfl⟩
  have hrun : m.Run (s ++ a :: e :: b :: t) := by
    have hlist : x :: (l₁ ++ e :: l₂) ++ [x] = s ++ a :: e :: b :: t := by
      calc x :: (l₁ ++ e :: l₂) ++ [x] = (x :: l₁) ++ e :: (l₂ ++ [x]) := by simp
        _ = s ++ a :: e :: b :: t := by rw [hs, ht]; simp
    exact hlist ▸ h.2
  obtain ⟨-, hae, hright⟩ := List.isChain_append_cons_cons.1 hrun
  exact ⟨s, t, a, b, hs, ht, hae, (List.isChain_cons_cons.1 hright).1⟩

/-- Joining the neighbours of a node takes it out of its ring. -/
theorem Ring.remove (h : m.Ring x (l₁ ++ e :: l₂)) (ha : m.Linked a e) (hb : m.Linked e b) :
    (m.join a b).Ring x (l₁ ++ l₂) := by
  obtain ⟨s, t, a', b', hs, ht, ha', hb'⟩ := h.neighbours
  obtain rfl := ha.prev_unique ha'
  obtain rfl := hb.next_unique hb'
  have hnodup : (e :: x :: (l₁ ++ l₂)).Nodup := by
    have hperm : (x :: (l₁ ++ e :: l₂)).Perm (e :: x :: (l₁ ++ l₂)) :=
      (List.perm_middle.cons x).trans (.swap e x _)
    exact hperm.nodup_iff.1 h.1
  obtain ⟨hnot, hnodup⟩ := List.nodup_cons.1 hnodup
  refine ⟨hnodup, ?_⟩
  have hlist : x :: (l₁ ++ l₂) ++ [x] = s ++ a :: b :: t := by
    calc x :: (l₁ ++ l₂) ++ [x] = (x :: l₁) ++ (l₂ ++ [x]) := by simp
      _ = s ++ a :: b :: t := by rw [hs, ht]; simp
  have hold : x :: (l₁ ++ e :: l₂) ++ [x] = s ++ a :: e :: b :: t := by
    calc x :: (l₁ ++ e :: l₂) ++ [x] = (x :: l₁) ++ e :: (l₂ ++ [x]) := by simp
      _ = s ++ a :: e :: b :: t := by rw [hs, ht]; simp
  rw [hlist]
  refine Run.remove (hold ▸ h.2) ?_ ?_
  · rw [← hs]
    exact fun he ↦ hnot (List.mem_cons.2 ((List.mem_cons.1 he).imp id (List.mem_append_left _)))
  · rw [← ht]
    refine fun he ↦ hnot (List.mem_cons.2 ?_)
    rcases List.mem_append.1 he with he | he
    · exact .inr (List.mem_append_right _ he)
    · exact .inl (List.mem_singleton.1 he)

/-- Insertion after the head. -/
theorem Ring.insertHead (h : m.Ring x l) (he : e ∉ x :: l) (hb : m.Linked x b) :
    ((m.join x e).join e b).Ring x (e :: l) := by
  obtain ⟨hx, hl⟩ := List.nodup_cons.1 h.1
  have hnodup : (x :: e :: l).Nodup := by
    rw [List.mem_cons, not_or] at he
    exact List.nodup_cons.2 ⟨by simp [hx, Ne.symm he.1], List.nodup_cons.2 ⟨he.2, hl⟩⟩
  refine ⟨hnodup, ?_⟩
  have hback : (l ++ [x]).Nodup := by
    have hperm : (l ++ [x]).Perm (x :: l) := List.perm_append_singleton x l
    exact hperm.nodup_iff.2 h.1
  obtain ⟨b', t, ht⟩ : ∃ b' t, l ++ [x] = b' :: t := by
    cases l with
    | nil => exact ⟨x, [], rfl⟩
    | cons b' t => exact ⟨b', t ++ [x], rfl⟩
  have hrun : m.Run ([] ++ x :: b' :: t) := by
    have hlist : x :: l ++ [x] = [] ++ x :: b' :: t := by simp [← ht]
    exact hlist ▸ h.2
  obtain rfl := hb.next_unique (List.isChain_cons_cons.1 hrun).1
  have hlist : x :: e :: l ++ [x] = [] ++ x :: e :: b :: t := by simp [← ht]
  rw [hlist]
  refine hrun.insert (by simp) ?_ (by simpa using fun hex ↦ he (by simp [hex])) ?_
  · exact (List.nodup_cons.1 (ht ▸ hback)).1
  · rw [← ht]
    refine fun hmem ↦ he (List.mem_cons.2 ?_)
    rcases List.mem_append.1 hmem with hmem | hmem
    · exact .inr hmem
    · exact .inl (List.mem_singleton.1 hmem)

/-- Insertion before the head. -/
theorem Ring.insertTail (h : m.Ring x l) (he : e ∉ x :: l) (ha : m.Linked a x) :
    ((m.join a e).join e x).Ring x (l ++ [e]) := by
  obtain ⟨hx, hl⟩ := List.nodup_cons.1 h.1
  have hnodup : (x :: (l ++ [e])).Nodup := by
    have hperm : (x :: (l ++ [e])).Perm (e :: x :: l) := List.perm_append_singleton e (x :: l)
    exact hperm.nodup_iff.2 (List.nodup_cons.2 ⟨he, h.1⟩)
  refine ⟨hnodup, ?_⟩
  obtain ⟨s, a', hs⟩ : ∃ s a', x :: l = s ++ [a'] :=
    ⟨_, _, (List.dropLast_append_getLast (List.cons_ne_nil x l)).symm⟩
  have hrun : m.Run (s ++ a' :: x :: []) := by
    have hlist : x :: l ++ [x] = s ++ a' :: x :: [] := by simp [hs]
    exact hlist ▸ h.2
  obtain ⟨-, ha', -⟩ := List.isChain_append_cons_cons.1 hrun
  obtain rfl := ha.prev_unique ha'
  have hlist : x :: (l ++ [e]) ++ [x] = s ++ a :: e :: x :: [] := by
    calc x :: (l ++ [e]) ++ [x] = (x :: l) ++ [e, x] := by simp
      _ = s ++ a :: e :: x :: [] := by rw [hs]; simp
  rw [hlist]
  refine hrun.insert ?_ (by simp) ?_ (by simpa using fun hex ↦ he (by simp [hex]))
  · rw [← hs]
    exact hx
  · rw [← hs]
    exact he

end Links

end Bsd386
