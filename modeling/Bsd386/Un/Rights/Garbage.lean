import Bsd386.Un.Rights.Accounting

/-!
# Garbage

`unp_gc` where there are files that cannot be reached. It marks all others, and then discards the
references to such a file until the count of those in messages is zero, which it reads from the file
that the last of these calls has freed.
-/

namespace Bsd386.Un

open Kern (Fault)
open Kern.Descrip (short short_eq)

variable {F S : Type} {s s' : System F S}

/-- A file that somebody can still get at: it has a descriptor, or it waits in a message at the
socket of such a file, or at a connection that waits there for `accept`. -/
inductive Live (s : System F S) : F → Prop
  | root {f : F} (hmem : f ∈ s.filehead) (hcount : s.count f ≠ 0) (hne : s.count f ≠ s.msgcount f) :
    Live s f
  | queued {f g : F} {x : S} (hlive : Live s f) (hsocket : s.socketOf f = some x)
    (hqueue : some g ∈ (s.socket x).rights) : Live s g
  | pending {f g : F} {x y : S} (hlive : Live s f) (hsocket : s.socketOf f = some x)
    (hpending : y ∈ (s.socket x).pending) (hqueue : some g ∈ (s.socket y).rights) : Live s g

/-- All references to the file are in messages that nobody can get at. -/
def Garbage (s : System F S) (f : F) : Prop :=
  s.count f ≠ 0 ∧ s.count f = s.msgcount f ∧ ¬Live s f

/-- A run of `unp_gc` without a fault, which closes the garbage and nothing else. -/
def Exact [DecidableEq F] [DecidableEq S] (close : F → System F S → Except Fault (System F S))
    (s : System F S) : Prop :=
  ∃ s', System.unpGc close s = .ok s' ∧ ∀ f, f ∈ s'.filehead ↔ f ∈ s.filehead ∧ ¬Garbage s f

variable [DecidableEq F]

/-! ### Marks -/

/-- Only files that can be reached are marked. -/
structure Marked (s : System F S) (marks : Marks F) : Prop where
  reachable : ∀ f, marks.mark f = true → Reachable s f
  defer_mark : ∀ f, marks.defer f = true → marks.mark f = true

theorem Marked.unpMark {marks marks' : Marks F} {r : Option F} (hmarked : Marked s marks)
    (hreach : ∀ g, r = some g → Reachable s g) (hrun : System.unpMark s marks r = .ok marks') :
    Marked s marks' := by
  cases r with
  | none => cases hrun
  | some g =>
    rw [System.unpMark, System.file] at hrun
    by_cases hmem : g ∈ s.filehead
    swap
    · rw [if_neg hmem] at hrun
      cases hrun
    rw [if_pos hmem, ok_bind] at hrun
    split_ifs at hrun with hmark
    · cases hrun
      exact hmarked
    · cases hrun
      constructor
      · intro f hf
        by_cases hfg : f = g
        · exact hfg ▸ hreach g rfl
        · dsimp only at hf
          rw [Function.update_of_ne hfg] at hf
          exact hmarked.reachable f hf
      · intro f hf
        dsimp only at hf ⊢
        by_cases hfg : f = g
        · rw [hfg, Function.update_self]
        · rw [Function.update_of_ne hfg] at hf ⊢
          exact hmarked.defer_mark f hf

theorem Marked.unpMarks {marks marks' : Marks F} {rights : List (Option F)}
    (hmarked : Marked s marks)
    (hreach : ∀ g, some g ∈ rights → Reachable s g)
    (hrun : rights.foldlM (System.unpMark s) marks = .ok marks') : Marked s marks' := by
  induction rights generalizing marks with
  | nil =>
    cases hrun
    exact hmarked
  | cons r rights ih =>
    rw [List.foldlM_cons] at hrun
    cases hstep : System.unpMark s marks r with
    | error e =>
      rw [hstep] at hrun
      cases hrun
    | ok marks₁ =>
      rw [hstep, ok_bind] at hrun
      refine ih (hmarked.unpMark (fun g hg ↦ hreach g ?_) hstep)
        (fun g hg ↦ hreach g (List.mem_cons_of_mem r hg)) hrun
      rw [hg]
      exact List.mem_cons_self

variable [DecidableEq S]

theorem Marked.markQueue {marks marks' : Marks F} {fp : F} (hmarked : Marked s marks)
    (hreach : Reachable s fp) (hrun : System.markQueue s marks fp = .ok marks') :
    Marked s marks' := by
  have hqueue : ∀ g, some g ∈ s.queue fp → Reachable s g := fun g hg ↦ .queued hreach hg
  rw [System.markQueue] at hrun
  rw [System.queue] at hqueue
  cases hsocket : s.socketOf fp with
  | none =>
    rw [hsocket] at hrun
    cases hrun
    exact hmarked
  | some x =>
    rw [hsocket] at hrun hqueue
    dsimp only at hrun hqueue
    rw [System.sock] at hrun
    split_ifs at hrun with hx
    · rw [ok_bind] at hrun
      exact hmarked.unpMarks hqueue hrun
    · cases hrun

theorem Marked.markFile {marks marks' : Marks F} {fp : F} (hmem : fp ∈ s.filehead)
    (hmarked : Marked s marks) (hrun : System.markFile s marks fp = .ok marks') :
    Marked s marks' := by
  rw [System.markFile] at hrun
  split_ifs at hrun with hzero hdefer hskip
  · cases hrun
    exact hmarked
  · have hcleared : Marked s { marks with
        defer := Function.update marks.defer fp false
        unpDefer := marks.unpDefer - 1 } := by
      refine ⟨hmarked.reachable, fun f hf ↦ ?_⟩
      dsimp only at hf
      by_cases hfp : f = fp
      · rw [hfp, Function.update_self] at hf
        cases hf
      · rw [Function.update_of_ne hfp] at hf
        exact hmarked.defer_mark f hf
    exact hcleared.markQueue (hmarked.reachable fp (hmarked.defer_mark fp hdefer)) hrun
  · cases hrun
    exact hmarked
  · have hroot : Reachable s fp := .root hmem hzero fun h ↦ hskip (.inr h)
    have hnew : Marked s { marks with mark := Function.update marks.mark fp true } := by
      refine ⟨fun f hf ↦ ?_, fun f hf ↦ ?_⟩
      · dsimp only at hf
        by_cases hfp : f = fp
        · exact hfp ▸ hroot
        · rw [Function.update_of_ne hfp] at hf
          exact hmarked.reachable f hf
      · dsimp only
        by_cases hfp : f = fp
        · rw [hfp, Function.update_self]
        · rw [Function.update_of_ne hfp]
          exact hmarked.defer_mark f hf
    exact hnew.markQueue hroot hrun

theorem Marked.pass {marks marks' : Marks F} {files : List F} (hsub : files ⊆ s.filehead)
    (hmarked : Marked s marks) (hrun : files.foldlM (System.markFile s) marks = .ok marks') :
    Marked s marks' := by
  induction files generalizing marks with
  | nil =>
    cases hrun
    exact hmarked
  | cons fp files ih =>
    obtain ⟨hmem, hrest⟩ := List.cons_subset.mp hsub
    rw [List.foldlM_cons] at hrun
    cases hstep : System.markFile s marks fp with
    | error e =>
      rw [hstep] at hrun
      cases hrun
    | ok marks₁ =>
      rw [hstep, ok_bind] at hrun
      exact ih hrest (hmarked.markFile hmem hstep) hrun

theorem Marked.markLoop {marks marks' : Marks F} (fuel : ℕ) (hmarked : Marked s marks)
    (hrun : System.markLoop s fuel marks = .ok marks') : Marked s marks' := by
  induction fuel generalizing marks with
  | zero => cases hrun
  | succ fuel ih =>
    rw [System.markLoop] at hrun
    cases hpass : s.filehead.foldlM (System.markFile s) marks with
    | error e =>
      rw [hpass] at hrun
      cases hrun
    | ok marks₁ =>
      have hmarked₁ := hmarked.pass (List.Subset.refl _) hpass
      rw [hpass, ok_bind] at hrun
      split_ifs at hrun
      · cases hrun
        exact hmarked₁
      · exact ih hmarked₁ hrun

/-! ### The list of open files -/

/-- No call of `close` opens a file. -/
def Shrinks (close : F → System F S → Except Fault (System F S)) : Prop :=
  ∀ fp s s', close fp s = .ok s' → s'.filehead.Sublist s.filehead

variable {close : F → System F S → Except Fault (System F S)}

/-- The second of two calls. -/
theorem of_bind_ok {A B : Type} {x : Except Fault A} {f : A → Except Fault B} {b : B}
    (hrun : (x >>= f) = .ok b) : ∃ a, x = .ok a ∧ f a = .ok b := by
  cases x with
  | error e => cases hrun
  | ok a => exact ⟨a, rfl, hrun⟩

omit [DecidableEq S] in
theorem Shrinks.unpDiscard (hclose : Shrinks close) {r : Option F}
    (hrun : System.unpDiscard close r s = .ok s') : s'.filehead.Sublist s.filehead := by
  cases r with
  | none => cases hrun
  | some fp =>
    rw [System.unpDiscard] at hrun
    obtain ⟨-, -, hrun⟩ := of_bind_ok hrun
    split_ifs at hrun
    · cases hrun
      exact List.Sublist.refl _
    · exact hclose fp (s.addMsg fp (-1)) s' hrun

omit [DecidableEq S] in
theorem Shrinks.discardAll (hclose : Shrinks close) {rights : List (Option F)}
    (hrun : System.discardAll close rights s = .ok s') : s'.filehead.Sublist s.filehead := by
  induction rights generalizing s with
  | nil =>
    cases hrun
    exact List.Sublist.refl _
  | cons r rights ih =>
    rw [System.discardAll] at hrun
    obtain ⟨s₁, hdiscard, hrun⟩ := of_bind_ok hrun
    exact (ih hrun).trans (hclose.unpDiscard hdiscard)

theorem Shrinks.sofree (hclose : Shrinks close) {x : S} (hrun : System.sofree close x s = .ok s') :
    s'.filehead.Sublist s.filehead := by
  rw [System.sofree] at hrun
  obtain ⟨s₁, hflush, hrun⟩ := of_bind_ok hrun
  rw [System.sorflush] at hflush
  obtain ⟨so, -, hflush⟩ := of_bind_ok hflush
  have hsub := hclose.discardAll hflush
  cases hrun
  exact hsub

theorem Shrinks.abortPending (hclose : Shrinks close) {x : S} (fuel : ℕ)
    (hrun : System.abortPending close x fuel s = .ok s') : s'.filehead.Sublist s.filehead := by
  induction fuel generalizing s with
  | zero =>
    rw [System.abortPending] at hrun
    obtain ⟨so, -, hrun⟩ := of_bind_ok hrun
    split_ifs at hrun
    cases hrun
    exact List.Sublist.refl _
  | succ fuel ih =>
    rw [System.abortPending] at hrun
    obtain ⟨so, -, hrun⟩ := of_bind_ok hrun
    cases hpending : so.pending with
    | nil =>
      rw [hpending] at hrun
      cases hrun
      exact List.Sublist.refl _
    | cons y pending =>
      rw [hpending] at hrun
      dsimp only at hrun
      obtain ⟨s₁, hfree, hrun⟩ := of_bind_ok hrun
      have hsub := hclose.sofree hfree
      exact (ih hrun).trans hsub

omit [DecidableEq S] in
theorem Shrinks.drain (hclose : Shrinks close) {fp : F} (fuel : ℕ)
    (hrun : System.drain close fp fuel s = .ok s') : s'.filehead.Sublist s.filehead := by
  induction fuel generalizing s with
  | zero => cases hrun
  | succ fuel ih =>
    rw [System.drain] at hrun
    obtain ⟨-, -, hrun⟩ := of_bind_ok hrun
    split_ifs at hrun
    · cases hrun
      exact List.Sublist.refl _
    · obtain ⟨s₁, hdiscard, hrun⟩ := of_bind_ok hrun
      exact (ih hrun).trans (hclose.unpDiscard hdiscard)

omit [DecidableEq S] in
theorem Shrinks.sweep (hclose : Shrinks close) {marked : F → Bool} {files : List F}
    (hrun : System.sweep close marked files s = .ok s') : s'.filehead.Sublist s.filehead := by
  induction files generalizing s with
  | nil =>
    cases hrun
    exact List.Sublist.refl _
  | cons fp files ih =>
    rw [System.sweep] at hrun
    split_ifs at hrun
    · obtain ⟨s₁, hdrain, hrun⟩ := of_bind_ok hrun
      obtain ⟨-, -, hrun⟩ := of_bind_ok hrun
      exact (ih hrun).trans (hclose.drain _ hdrain)
    · exact ih hrun
    · exact ih hrun

theorem Shrinks.unpGc (hclose : Shrinks close) (hrun : System.unpGc close s = .ok s') :
    s'.filehead.Sublist s.filehead := by
  rw [System.unpGc] at hrun
  split_ifs at hrun
  · cases hrun
    exact List.Sublist.refl _
  · obtain ⟨marks, -, hrun⟩ := of_bind_ok hrun
    obtain ⟨s₁, hsweep, hrun⟩ := of_bind_ok hrun
    have hsub := hclose.sweep hsweep
    cases hrun
    exact hsub

theorem Shrinks.soclose (hclose : Shrinks close) {x : S}
    (hrun : System.soclose close x s = .ok s') :
    s'.filehead.Sublist s.filehead := by
  rw [System.soclose] at hrun
  obtain ⟨so, -, hrun⟩ := of_bind_ok hrun
  obtain ⟨s₁, habort, hrun⟩ := of_bind_ok hrun
  have hfirst : s₁.filehead.Sublist s.filehead := hclose.abortPending _ habort
  dsimp only at hrun
  split_ifs at hrun
  · obtain ⟨s₂, hgc, hrun⟩ := of_bind_ok hrun
    have hsecond := hclose.unpGc hgc
    exact ((hclose.sofree hrun).trans hsecond).trans hfirst
  · have hsecond := hclose.sofree hrun
    exact hsecond.trans hfirst

/-- `closef` of the last reference, and what it leaves of the list. -/
theorem Shrinks.last {k : ℕ} (hclose : Shrinks (System.closef (F := F) (S := S) k)) {fp : F}
    (hzero : short (s.count fp - 1) = 0) (hrun : System.closef (k + 1) fp s = .ok s') :
    ∃ files : List F, files.Sublist s.filehead ∧ s'.filehead = files.erase fp := by
  have hfree : ∀ {t : System F S}, t.ffree fp = .ok s' → s'.filehead = t.filehead.erase fp := by
    intro t hthis
    rw [System.ffree] at hthis
    split_ifs at hthis
    cases hthis
    rfl
  rw [System.closef] at hrun
  obtain ⟨-, -, hrun⟩ := of_bind_ok hrun
  dsimp only at hrun
  rw [hzero, if_neg (Int.lt_irrefl 0), if_neg (Int.lt_irrefl 0)] at hrun
  cases hsocket : (s.setCount fp 0).socketOf fp with
  | none =>
    rw [hsocket] at hrun
    have hfiles := hfree hrun
    exact ⟨s.filehead, List.Sublist.refl _, hfiles⟩
  | some x =>
    rw [hsocket] at hrun
    obtain ⟨s₁, hsoclose, hrun⟩ := of_bind_ok hrun
    have hsub := hclose.soclose hsoclose
    exact ⟨s₁.filehead, hsub, hfree hrun⟩

theorem closef_shrinks (k : ℕ) : Shrinks (System.closef (F := F) (S := S) k) := by
  induction k with
  | zero =>
    intro fp s s' hrun
    cases hrun
  | succ k ih =>
    intro fp s s' hrun
    by_cases hzero : short (s.count fp - 1) = 0
    · obtain ⟨files, hsub, hfiles⟩ := ih.last hzero hrun
      rw [hfiles]
      exact List.erase_sublist.trans hsub
    · rw [System.closef] at hrun
      obtain ⟨-, -, hrun⟩ := of_bind_ok hrun
      dsimp only at hrun
      split_ifs at hrun with hpos hneg
      · cases hrun
        exact List.Sublist.refl _
      · omega

/-- What a call that closes a file does to the count of the file and to the list. -/
structure Closes (close : F → System F S → Except Fault (System F S)) : Prop where
  more : ∀ fp s s', close fp s = .ok s' → 0 < short (s.count fp - 1) →
    s' = s.setCount fp (short (s.count fp - 1))
  last : ∀ fp s s', close fp s = .ok s' → short (s.count fp - 1) = 0 →
    ∃ files : List F, files.Sublist s.filehead ∧ s'.filehead = files.erase fp

theorem closes_closef (k : ℕ) : Closes (System.closef (F := F) (S := S) k) := by
  constructor
  · intro fp s s' hrun hpos
    cases k with
    | zero => cases hrun
    | succ k =>
      rw [System.closef] at hrun
      obtain ⟨-, -, hrun⟩ := of_bind_ok hrun
      dsimp only at hrun
      rw [if_pos hpos] at hrun
      cases hrun
      rfl
  · intro fp s s' hrun hzero
    cases k with
    | zero => cases hrun
    | succ k => exact (closef_shrinks k).last hzero hrun

theorem closes_close : Closes (System.close (F := F) (S := S)) :=
  ⟨fun fp s s' hrun ↦ (closes_closef _).more fp s s' hrun,
    fun fp s s' hrun ↦ (closes_closef _).last fp s s' hrun⟩

/-! ### The last loop -/

omit [DecidableEq S] in
/-- The loop over the references to a file reads the file when it is free. -/
theorem drain_ne_ok {n : ℕ} {fp : F} (hclose : Closes close) (fuel : ℕ) (hnodup : s.filehead.Nodup)
    (hmem : fp ∈ s.filehead) (hcount : s.count fp = n) (hmsg : s.msgcount fp = n) (hpos : 0 < n)
    (hsmall : n < 2 ^ 15) : System.drain close fp fuel s ≠ .ok s' := by
  induction fuel generalizing s n with
  | zero =>
    intro hrun
    cases hrun
  | succ fuel ih =>
    intro hrun
    rw [System.drain, file_eq hmem, ok_bind, if_neg (by omega)] at hrun
    obtain ⟨s₁, hdiscard, hrun⟩ := of_bind_ok hrun
    rw [System.unpDiscard, file_eq hmem, ok_bind, if_neg (by omega)] at hdiscard
    have hnext : short ((s.addMsg fp (-1)).count fp - 1) = n - 1 := by
      change short (s.count fp - 1) = n - 1
      rw [hcount]
      exact short_pred hpos hsmall
    have hnextMsg : short (s.msgcount fp + -1) = n - 1 := by
      rw [hmsg]
      exact short_pred hpos hsmall
    by_cases hone : n = 1
    · -- The file has lost its last reference and has been freed.
      have hzero : short ((s.addMsg fp (-1)).count fp - 1) = 0 := by
        rw [hnext, hone]
        rfl
      obtain ⟨files, hsub, hfiles⟩ := hclose.last _ _ _ hdiscard hzero
      have hgone : fp ∉ s₁.filehead := by
        rw [hfiles]
        exact (hnodup.sublist hsub).not_mem_erase
      cases fuel with
      | zero => cases hrun
      | succ fuel =>
        rw [System.drain, System.file, if_neg hgone] at hrun
        cases hrun
    · have hset := hclose.more _ _ _ hdiscard (by omega)
      rw [hnext] at hset
      subst hset
      have hcount' : ((s.addMsg fp (-1)).setCount fp ((n : ℤ) - 1)).count fp = (n - 1 : ℕ) := by
        change Function.update s.count fp ((n : ℤ) - 1) fp = (n - 1 : ℕ)
        rw [Function.update_self]
        omega
      have hmsg' : ((s.addMsg fp (-1)).setCount fp ((n : ℤ) - 1)).msgcount fp = (n - 1 : ℕ) := by
        change Function.update s.msgcount fp (short (s.msgcount fp + -1)) fp = (n - 1 : ℕ)
        rw [Function.update_self, hnextMsg]
        omega
      have hnodup' : ((s.addMsg fp (-1)).setCount fp ((n : ℤ) - 1)).filehead.Nodup := hnodup
      exact ih hnodup' hmem hcount' hmsg' (by omega) (by omega) hrun

omit [DecidableEq S] in
/-- The last loop fails at the first file whose references are to be discarded. -/
theorem sweep_ne_ok {marked : F → Bool} {files : List F} {fp : F} (hclose : Closes close)
    (hnodup : s.filehead.Nodup) (hsub : files ⊆ s.filehead) (hmem : fp ∈ files)
    (hcount : s.count fp ≠ 0) (heq : s.count fp = s.msgcount fp) (hmarked : marked fp = false)
    (hnat : ∀ f ∈ s.filehead, ∃ n : ℕ, s.count f = n ∧ n < 2 ^ 15) :
    System.sweep close marked files s ≠ .ok s' := by
  induction files with
  | nil => cases hmem
  | cons f files ih =>
    intro hrun
    obtain ⟨hf, hrest⟩ := List.cons_subset.mp hsub
    rw [System.sweep, if_neg (not_not_intro hf)] at hrun
    by_cases hgarbage : s.count f ≠ 0 ∧ s.count f = s.msgcount f ∧ marked f = false
    · rw [if_pos hgarbage] at hrun
      obtain ⟨s₁, hdrain, -⟩ := of_bind_ok hrun
      obtain ⟨n, hn, hsmall⟩ := hnat f hf
      refine drain_ne_ok hclose _ hnodup hf hn (hgarbage.2.1 ▸ hn) ?_ hsmall hdrain
      have hne := hgarbage.1
      omega
    · rw [if_neg hgarbage] at hrun
      have hother : fp ≠ f := by
        intro h
        subst h
        exact hgarbage ⟨hcount, heq, hmarked⟩
      exact ih hrest ((List.mem_cons.mp hmem).resolve_left hother) hrun

/-- `unp_gc` fails where a file cannot be reached. -/
theorem unpGc_ne_ok {fp : F} (hclose : Closes close) (hnodup : s.filehead.Nodup)
    (hmem : fp ∈ s.filehead) (hcount : s.count fp ≠ 0) (hreach : ¬Reachable s fp)
    (hgcing : s.unpGcing = false)
    (hnat : ∀ f ∈ s.filehead, ∃ n : ℕ, s.count f = n ∧ n < 2 ^ 15) :
    System.unpGc close s ≠ .ok s' := by
  intro hrun
  rw [System.unpGc, hgcing, if_neg Bool.false_ne_true] at hrun
  dsimp only at hrun
  obtain ⟨marks, hmark, hrun⟩ := of_bind_ok hrun
  obtain ⟨s₁, hsweep, -⟩ := of_bind_ok hrun
  have hmarked := Marked.markLoop (s.filehead.length + 1)
    (Marked.mk (fun _ h ↦ absurd h Bool.false_ne_true) fun _ h ↦ absurd h Bool.false_ne_true) hmark
  have hsame : ∀ f, Reachable { s with unpGcing := true } f → Reachable s f := by
    intro f hf
    induction hf with
    | root hmem hcount hne => exact .root hmem hcount hne
    | queued _ hqueue ih => exact .queued ih hqueue
  have hnot : marks.mark fp = false :=
    Bool.eq_false_iff.mpr fun h ↦ hreach (hsame fp (hmarked.reachable fp h))
  have heq : s.count fp = s.msgcount fp := by
    by_contra hne
    exact hreach (.root hmem hcount hne)
  exact sweep_ne_ok (s := { s with unpGcing := true }) hclose hnodup
    (List.Subset.refl _) hmem hcount
    heq hnot hnat hsweep

/-! ### What is collected -/

variable {closing : Option F}

omit [DecidableEq S] in
theorem Sound.live (hsound : Sound s closing) {f : F} (hreach : Reachable s f) : Live s f := by
  induction hreach with
  | root hmem hcount hne => exact .root hmem hcount hne
  | @queued f g hreach hqueue ih =>
    have hmem := (hsound.referenced hreach).1
    cases hx : s.socketOf f with
    | none =>
      rw [System.queue, hx] at hqueue
      cases hqueue
    | some x =>
      rw [hsound.queue_eq hmem hx] at hqueue
      exact .queued ih hx hqueue

/-- A run without garbage. -/
theorem Sound.exact_iff (hsound : Sound s closing) (hclose : Closes close) :
    Exact close s ↔ ∀ f ∈ s.filehead, s.count f ≠ 0 → Reachable s f := by
  constructor
  · rintro ⟨s', hrun, -⟩ f hf hcount
    by_contra hnot
    refine unpGc_ne_ok hclose hsound.tally.nodup hf hcount hnot hsound.gcing (fun g hg ↦ ?_) hrun
    exact ⟨_, hsound.tally.count g hg, hsound.tally.small g⟩
  · intro hreach
    refine ⟨s, unpGc_eq hsound.traversable hsound.gcing hreach, fun f ↦ ?_⟩
    refine ⟨fun hf ↦ ⟨hf, fun hgarbage ↦ ?_⟩, fun hf ↦ hf.1⟩
    exact hgarbage.2.2 (hsound.live (hreach f hf hgarbage.1))

/-- `unp_gc` does what it is for if and only if all files that have a reference can be reached, from
`gc` and within any number of calls of `closef`. -/
theorem unp_gc_exact (hsound : Sound s closing) :
    (Exact System.close s ↔ ∀ f ∈ s.filehead, s.count f ≠ 0 → Reachable s f) ∧
      ∀ k, Exact (System.closef k) s ↔ ∀ f ∈ s.filehead, s.count f ≠ 0 → Reachable s f :=
  ⟨hsound.exact_iff closes_close, fun k ↦ hsound.exact_iff (closes_closef k)⟩

theorem pair_gc_exact :
    (∀ f ∈ pair.filehead, pair.count f ≠ 0 → Reachable pair f) ∧ Exact System.close pair := by
  have hreach : ∀ f ∈ pair.filehead, pair.count f ≠ 0 → Reachable pair f := by
    intro f hf hcount
    refine .root hf hcount ?_
    change (1 : ℤ) ≠ 0
    decide
  exact ⟨hreach, (unp_gc_exact pair_sound).1.mpr hreach⟩

/-- A socket whose only reference is in a message at the socket itself. -/
def loop : System (Fin 1) (Fin 1) where
  procs := []
  filehead := [0]
  count := fun _ ↦ 1
  msgcount := fun _ ↦ 1
  socketOf := fun _ ↦ some 0
  socks := [0]
  socket := fun _ ↦ ⟨false, false, [], none, some 16, 2048, 4096, 0, 0,
    ⟨16, 4112, 128, 8224, [[⟨16, 128, .soname⟩, ⟨16, 128, .control [some 0]⟩]]⟩⟩
  unpRights := 1
  unpGcing := false

/-- A file that cannot be reached. -/
theorem loop_not_exact :
    ¬ ∀ (s : System (Fin 1) (Fin 1)) (closing : Option (Fin 1)),
      Sound s closing → Exact System.close s := by
  intro h
  have hsound : Sound loop none := by
    refine ⟨?_, ⟨by decide, by decide, by decide, by decide, by decide, by decide, by decide, ?_⟩,
      rfl, by decide, ?_, ⟨by decide, by decide, ?_, by decide, ?_, ?_, ?_, ?_⟩, rfl⟩
    · intro q hq
      cases hq
    · intro f hf
      cases hf
    · intro x _ record hrecord
      cases List.mem_singleton.mp hrecord
      exact ⟨[⟨16, 128, .soname⟩], [⟨16, 128, .control [some 0]⟩], [], rfl,
        rfl, by decide, by decide,
        by decide, by decide⟩
    · intro _ _ _ _ _ _
      exact List.not_mem_nil
    · intro _ _ _ hy
      cases hy
    · intro _ _
      exact List.nodup_nil
    · intro _ _ _ _ _ _ hy
      cases hy
    · intro _ _ _ hy
      cases hy
  obtain ⟨s', hrun, -⟩ := h loop none hsound
  cases hrun

end Bsd386.Un
