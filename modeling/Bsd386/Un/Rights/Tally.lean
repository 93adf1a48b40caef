import Bsd386.Lib.Counting
import Bsd386.Un.Rights.Basic
import Mathlib.Data.List.Count

/-!
# Counts of references

The two counts of a file, against the references that there are. Discarding rights takes references
away; a file that loses its last one is freed, which closes nothing else unless the file is a
socket.
-/

namespace Bsd386.Un

open Kern (Fault)
open Kern.Descrip (short short_eq)

variable {F S : Type} [DecidableEq F] {s : System F S} {n m : F → ℕ} {closing : Option F}

/-- `f_count` is `n` and `f_msgcount` is `m`. The open files are those with a reference, and the one
that is being closed. -/
structure Tally (s : System F S) (n m : F → ℕ) (closing : Option F) : Prop where
  nodup : s.filehead.Nodup
  count : ∀ f ∈ s.filehead, s.count f = n f
  msgcount : ∀ f ∈ s.filehead, s.msgcount f = m f
  small : ∀ f, n f < 2 ^ 15
  le : ∀ f, m f ≤ n f
  mem : ∀ f, n f ≠ 0 → f ∈ s.filehead
  pos : ∀ f ∈ s.filehead, n f = 0 → closing = some f
  closed : ∀ f, closing = some f → n f = 0 ∧ f ∈ s.filehead

theorem file_eq {fp : F} (hmem : fp ∈ s.filehead) : s.file fp = .ok () := if_pos hmem

theorem ok_bind {A B : Type} (a : A) (f : A → Except Fault B) : (Except.ok a >>= f) = f a := rfl

/-- What discarding one reference leaves of the files. -/
def discarded (s : System F S) (fp : F) : System F S :=
  { s with
    filehead := if s.count fp = 1 then s.filehead.erase fp else s.filehead
    count := Function.update s.count fp (s.count fp - 1)
    msgcount := Function.update s.msgcount fp (s.msgcount fp - 1)
    unpRights := s.unpRights - 1 }

theorem short_pred {k : ℕ} (hpos : 0 < k) (hsmall : k < 2 ^ 15) : short ((k : ℤ) + -1) = k - 1 :=
  short_eq (by omega) (by omega)

/-- `unp_discard` of a reference that counts. -/
theorem unpDiscard_eq [DecidableEq S] {fp : F} {k : ℕ} (htally : Tally s n m closing)
    (hpos : 0 < m fp)
    (hlast : n fp = 1 → s.socketOf fp = none) :
    System.unpDiscard (System.closef (k + 1)) (some fp) s = .ok (discarded s fp) := by
  have hle := htally.le fp
  have hsmall := htally.small fp
  have hmem := htally.mem fp (by omega)
  have hcount := htally.count fp hmem
  have hmsg := htally.msgcount fp hmem
  have hne : s.msgcount fp ≠ 0 := by omega
  have hnext : short (s.count fp - 1) = s.count fp - 1 := by
    rw [hcount]
    exact short_pred (by omega) hsmall
  have hnextMsg : short (s.msgcount fp + -1) = s.msgcount fp - 1 := by
    rw [hmsg]
    exact short_pred hpos (by omega)
  have hfile : (s.addMsg fp (-1)).file fp = .ok () := file_eq hmem
  have hsame : (s.addMsg fp (-1)).count fp = s.count fp := rfl
  rw [System.unpDiscard]
  simp only [file_eq hmem, ok_bind, if_neg hne]
  rw [System.closef]
  simp only [hfile, ok_bind, hsame, hnext]
  by_cases hone : s.count fp = 1
  · rw [if_neg (by omega), if_neg (by omega)]
    have hnone : ((s.addMsg fp (-1)).setCount fp (s.count fp - 1)).socketOf fp = none :=
      hlast (by omega)
    simp only [hnone]
    have hmem' : fp ∈ ((s.addMsg fp (-1)).setCount fp (s.count fp - 1)).filehead := hmem
    rw [System.ffree, if_pos hmem', discarded, if_pos hone]
    simp only [System.addMsg, System.setCount, hnextMsg]
    rfl
  · rw [if_pos (by omega), discarded, if_neg hone]
    simp only [System.addMsg, System.setCount, hnextMsg]
    rfl

theorem Tally.discarded {fp : F}
    (htally : Tally s (fun f ↦ n f + if f = fp then 1 else 0) (fun f ↦ m f + if f = fp then 1
    else 0)
      closing) :
    Tally (discarded s fp) n m closing := by
  obtain ⟨hnodup, hcount, hmsg, hsmall, hle, hmem, hpos, hclosed⟩ := htally
  have hfp : fp ∈ s.filehead := hmem fp (by simp)
  have hone : s.count fp = 1 ↔ n fp = 0 := by
    have hthis := hcount fp hfp
    rw [if_pos rfl] at hthis
    omega
  have hlist : ∀ f, f ∈ (Un.discarded s fp).filehead ↔ f ∈ s.filehead ∧ (f = fp → n fp ≠ 0) := by
    intro f
    change f ∈ (if s.count fp = 1 then s.filehead.erase fp else s.filehead) ↔ _
    by_cases hzero : n fp = 0
    · rw [if_pos (hone.mpr hzero), hnodup.mem_erase_iff]
      exact ⟨fun h ↦ ⟨h.2, fun heq ↦ absurd heq h.1⟩, fun h ↦ ⟨fun heq ↦ h.2 heq hzero, h.1⟩⟩
    · rw [if_neg (mt hone.mp hzero)]
      exact ⟨fun h ↦ ⟨h, fun _ ↦ hzero⟩, fun h ↦ h.1⟩
  refine ⟨?_, fun f hf ↦ ?_, fun f hf ↦ ?_, fun f ↦ ?_, fun f ↦ ?_, fun f hne ↦ ?_,
    fun f hf hzero ↦ ?_,
    fun f hf ↦ ?_⟩
  · change (if s.count fp = 1 then s.filehead.erase fp else s.filehead).Nodup
    split_ifs
    · exact hnodup.erase fp
    · exact hnodup
  · have hold := hcount f ((hlist f).mp hf).1
    change Function.update s.count fp (s.count fp - 1) f = n f
    by_cases heq : f = fp
    · subst heq
      rw [if_pos rfl] at hold
      rw [Function.update_self]
      omega
    · rw [if_neg heq] at hold
      rw [Function.update_of_ne heq]
      omega
  · have hold := hmsg f ((hlist f).mp hf).1
    change Function.update s.msgcount fp (s.msgcount fp - 1) f = m f
    by_cases heq : f = fp
    · subst heq
      rw [if_pos rfl] at hold
      rw [Function.update_self]
      omega
    · rw [if_neg heq] at hold
      rw [Function.update_of_ne heq]
      omega
  · have hthis := hsmall f
    omega
  · have hthis := hle f
    omega
  · exact (hlist f).mpr ⟨hmem f (by omega), fun heq ↦ heq ▸ hne⟩
  · obtain ⟨hold, hkept⟩ := (hlist f).mp hf
    have hother : f ≠ fp := fun heq ↦ hkept heq (heq ▸ hzero)
    exact hpos f hold (by rw [if_neg hother, hzero])
  · obtain ⟨hzero, hfhead⟩ := hclosed f hf
    have hother : f ≠ fp := fun heq ↦ by
      rw [if_pos heq] at hzero
      exact absurd hzero (Nat.succ_ne_zero _)
    rw [if_neg hother] at hzero
    exact ⟨hzero, (hlist f).mpr ⟨hfhead, fun heq ↦ absurd heq hother⟩⟩

/-- The files and their counts change. -/
def System.withFiles (s : System F S) (filehead : List F) (count msgcount : F → ℤ) (unpRights : ℤ) :
    System F S :=
  { s with filehead := filehead, count := count, msgcount := msgcount, unpRights := unpRights }

/-- Discarding rights: the files lose the references, and nothing else changes. -/
theorem discardAll_spec [DecidableEq S] {rights : List F} {k : ℕ}
    (htally : Tally s (fun f ↦ n f + rights.count f) (fun f ↦ m f + rights.count f) closing)
    (hlast : ∀ f ∈ rights, n f = 0 → s.socketOf f = none) (hfuel : rights ≠ [] → k ≠ 0) :
    ∃ filehead count msgcount, System.discardAll (System.closef k) (rights.map some) s =
        .ok (s.withFiles filehead count msgcount (s.unpRights - rights.length)) ∧
      Tally (s.withFiles filehead count msgcount (s.unpRights - rights.length)) n m closing ∧
      filehead ⊆ s.filehead := by
  induction rights generalizing s with
  | nil =>
    refine ⟨s.filehead, s.count, s.msgcount, ?_, ?_, List.Subset.refl _⟩
    · rw [List.map_nil, System.discardAll, List.length_nil, System.withFiles]
      simp
    · simpa [System.withFiles] using htally
  | cons fp rights ih =>
    obtain ⟨k, rfl⟩ := Nat.exists_eq_succ_of_ne_zero (hfuel (List.cons_ne_nil fp rights))
    have hcons : ∀ f, (fp :: rights).count f = rights.count f + if f = fp then 1 else 0 := by
      intro f
      rw [List.count_cons]
      simp only [beq_iff_eq]
      rw [if_congr eq_comm rfl rfl]
    have hfirst : Tally s (fun f ↦ n f + rights.count f + if f = fp then 1 else 0)
        (fun f ↦ m f + rights.count f + if f = fp then 1 else 0) closing := by
      have hthis := htally
      simp only [hcons, ← Nat.add_assoc] at hthis
      exact hthis
    have hstep : System.unpDiscard (System.closef (k + 1)) (some fp) s = .ok (discarded s fp) := by
      refine unpDiscard_eq hfirst (by simp) fun hone ↦ ?_
      rw [if_pos rfl] at hone
      exact hlast fp List.mem_cons_self (by omega)
    obtain ⟨filehead, count, msgcount, hrun, htally', hsub⟩ := ih hfirst.discarded
      (fun f hf hzero ↦ hlast f (List.mem_cons_of_mem fp hf) hzero) (fun _ ↦ Nat.succ_ne_zero k)
    have hrights : (discarded s fp).unpRights - rights.length =
        s.unpRights - ((fp :: rights).length : ℕ) := by
      change s.unpRights - 1 - (rights.length : ℤ) = s.unpRights - ((rights.length + 1 : ℕ) : ℤ)
      omega
    rw [hrights] at hrun htally'
    refine ⟨filehead, count, msgcount, ?_, htally', fun f hf ↦ ?_⟩
    · rw [List.map_cons, System.discardAll, hstep, ok_bind]
      exact hrun
    · have hthis := hsub hf
      rw [discarded] at hthis
      dsimp only at hthis
      split_ifs at hthis
      · exact List.mem_of_mem_erase hthis
      · exact hthis

end Bsd386.Un

/-!
# The search for unreachable rights

`unp_gc` marks the files that have a descriptor, and from them on those that wait at the sockets of
marked files. Where that reaches all open files it changes nothing.
-/

namespace Bsd386.Un

open Kern (Fault)

variable {F S : Type} {s : System F S}

/-- The pointers that wait at the socket of a file. -/
def System.queue (s : System F S) (fp : F) : List (Option F) :=
  match s.socketOf fp with
  | none => []
  | some x => scan (s.socket x).rcv.sbMb

/-- A file can be reached from one that has a descriptor. -/
inductive Reachable (s : System F S) : F → Prop
  | root {f : F} (hmem : f ∈ s.filehead) (hcount : s.count f ≠ 0) (hne : s.count f ≠ s.msgcount f) :
    Reachable s f
  | queued {f g : F} (hreach : Reachable s f) (hqueue : some g ∈ s.queue f) : Reachable s g

/-- What `unp_gc` follows leads to open files. -/
structure Traversable (s : System F S) : Prop where
  nodup : s.filehead.Nodup
  socks : ∀ f ∈ s.filehead, ∀ x, s.socketOf f = some x → x ∈ s.socks
  queues : ∀ f ∈ s.filehead, ∀ r ∈ s.queue f, ∃ g ∈ s.filehead, r = some g ∧ s.count g ≠ 0

/-- The marks in a pass that began with the marks `start` and has the files `rest` before it. Only
the rights at the socket of `fp` may still have to be marked. -/
structure Marking (s : System F S) (start : F → Bool) (rest : List F) (fp : Option F)
    (marks : Marks F) : Prop where
  defer_mark : ∀ g, marks.defer g = true → marks.mark g = true
  unpDefer : marks.unpDefer = s.filehead.countP marks.defer
  mem : ∀ g, marks.mark g = true → g ∈ s.filehead ∧ s.count g ≠ 0
  closed : ∀ f g, some f ≠ fp → marks.mark f = true → marks.defer f = false → some g ∈ s.queue f →
    marks.mark g = true
  mono : ∀ g, start g = true → marks.mark g = true
  fresh : ∀ g, marks.defer g = true → g ∈ rest ∨ start g = false
  roots : ∀ f ∈ s.filehead, s.count f ≠ 0 → s.count f ≠ s.msgcount f →
    f ∈ rest ∨ marks.mark f = true

variable [DecidableEq F]

/-- `unp_mark` of an open file. -/
theorem Marking.unpMark {start : F → Bool} {rest : List F} {fp : Option F} {marks : Marks F} {g : F}
    (hready : Traversable s) (hmarking : Marking s start rest fp marks) (hmem : g ∈ s.filehead)
    (hcount : s.count g ≠ 0) :
    ∃ marks', System.unpMark s marks (some g) = .ok marks' ∧ Marking s start rest fp marks' ∧
      marks'.mark g = true ∧ (∀ f, marks.mark f = true →
        marks'.mark f = true ∧ marks'.defer f = marks.defer f) := by
  rw [System.unpMark, file_eq hmem, ok_bind]
  by_cases hmark : marks.mark g = true
  · rw [if_pos hmark]
    exact ⟨marks, rfl, hmarking, hmark, fun f hf ↦ ⟨hf, rfl⟩⟩
  rw [if_neg hmark]
  obtain ⟨hdefer, hunp, hmembers, hclosed, hmono, hfresh, hroots⟩ := hmarking
  have hkeep : ∀ f, marks.mark f = true → Function.update marks.mark g true f = true := by
    intro f hf
    by_cases hfg : f = g
    · rw [hfg, Function.update_self]
    · rw [Function.update_of_ne hfg, hf]
  have hold : ∀ f, marks.mark f = true → f ≠ g := fun f hf hfg ↦ hmark (hfg ▸ hf)
  refine ⟨_, rfl, ⟨fun f hf ↦ ?_, ?_, fun f hf ↦ ?_, fun f f' hne hf hnot hq ↦ ?_, fun f hf ↦ ?_,
    fun f hf ↦ ?_, fun f hf hzero hne ↦ ?_⟩, Function.update_self .., fun f hf ↦ ⟨hkeep f hf, ?_⟩⟩
  · dsimp only at hf ⊢
    by_cases hfg : f = g
    · rw [hfg, Function.update_self]
    · rw [Function.update_of_ne hfg] at hf
      exact hkeep f (hdefer f hf)
  · have hnot : marks.defer g = false := Bool.eq_false_iff.mpr fun h ↦ hmark (hdefer g h)
    have hthis := countP_update (p := marks.defer) hready.nodup hmem true
    rw [hnot] at hthis
    change marks.unpDefer + 1 = (s.filehead.countP (Function.update marks.defer g true) : ℤ)
    simp only [Bool.toNat_false, Bool.toNat_true] at hthis
    omega
  · dsimp only at hf
    by_cases hfg : f = g
    · exact hfg ▸ ⟨hmem, hcount⟩
    · rw [Function.update_of_ne hfg] at hf
      exact hmembers f hf
  · dsimp only at hf hnot
    by_cases hfg : f = g
    · rw [hfg, Function.update_self] at hnot
      exact nomatch hnot
    · rw [Function.update_of_ne hfg] at hf hnot
      exact hkeep f' (hclosed f f' hne hf hnot hq)
  · exact hkeep f (hmono f hf)
  · dsimp only at hf
    by_cases hfg : f = g
    · rw [hfg]
      exact .inr (Bool.eq_false_iff.mpr fun h ↦ hmark (hmono g h))
    · rw [Function.update_of_ne hfg] at hf
      exact hfresh f hf
  · exact (hroots f hf hzero hne).imp_right (hkeep f)
  · exact Function.update_of_ne (hold f hf) ..

/-- Mark a list of pointers. -/
theorem Marking.unpMarks {start : F → Bool} {rest : List F} {fp : Option F} {marks : Marks F}
    {rights : List (Option F)} (hready : Traversable s) (hmarking : Marking s start rest fp marks)
    (hrights : ∀ r ∈ rights, ∃ g ∈ s.filehead, r = some g ∧ s.count g ≠ 0) :
    ∃ marks', rights.foldlM (System.unpMark s) marks = .ok marks' ∧ Marking s start rest fp marks' ∧
      (∀ g, some g ∈ rights → marks'.mark g = true) ∧ (∀ f, marks.mark f = true →
        marks'.mark f = true ∧ marks'.defer f = marks.defer f) := by
  induction rights generalizing marks with
  | nil => exact ⟨marks, rfl, hmarking, nofun, fun f hf ↦ ⟨hf, rfl⟩⟩
  | cons r rights ih =>
    obtain ⟨g, hmem, rfl, hcount⟩ := hrights r List.mem_cons_self
    obtain ⟨marks₁, hstep, hmarking₁, hg, hkeep₁⟩ := hmarking.unpMark hready hmem hcount
    obtain ⟨marks', hrun, hmarking', hall, hkeep⟩ := ih hmarking₁ fun r hr ↦
      hrights r (List.mem_cons_of_mem _ hr)
    refine ⟨marks', ?_, hmarking', fun f hf ↦ ?_, fun f hf ↦ ?_⟩
    · rw [List.foldlM_cons, hstep]
      exact hrun
    · rcases List.mem_cons.mp hf with heq | hrest
      · rw [Option.some.inj heq]
        exact (hkeep g hg).1
      · exact hall f hrest
    · obtain ⟨hmark, hdefer⟩ := hkeep₁ f hf
      exact ⟨(hkeep f hmark).1, (hkeep f hmark).2.trans hdefer⟩

variable [DecidableEq S]

/-- Mark what waits at the socket of a file that is marked itself. -/
theorem Marking.markQueue {start : F → Bool} {rest : List F} {marks : Marks F} {fp : F}
    (hready : Traversable s) (hmem : fp ∈ s.filehead)
    (hmarking : Marking s start rest (some fp) marks) (hmark : marks.mark fp = true)
    (hdefer : marks.defer fp = false) :
    ∃ marks', System.markQueue s marks fp = .ok marks' ∧ Marking s start rest none marks' ∧
      marks'.mark fp = true ∧ marks'.defer fp = false := by
  have hqueues := hready.queues fp hmem
  obtain ⟨marks', hrun, hmarking', hall, hkeep⟩ := hmarking.unpMarks hready hqueues
  obtain ⟨hmark', hdefer'⟩ := hkeep fp hmark
  refine ⟨marks', ?_, { hmarking' with closed := ?_ }, hmark', hdefer'.trans hdefer⟩
  · rw [System.markQueue]
    rw [System.queue] at hrun
    cases hsock : s.socketOf fp with
    | none =>
      rw [hsock] at hrun
      exact hrun
    | some x =>
      have hsome : s.sock x = .ok (s.socket x) := if_pos (hready.socks fp hmem x hsock)
      rw [hsock] at hrun
      dsimp only at hrun ⊢
      rw [hsome, ok_bind]
      exact hrun
  · intro f g _ hf hnot hq
    by_cases hfp : some f = some fp
    · cases hfp
      exact hall g hq
    · exact hmarking'.closed f g hfp hf hnot hq

/-- One file in a pass. -/
theorem Marking.markFile {start : F → Bool} {rest : List F} {marks : Marks F} {fp : F}
    (hready : Traversable s) (hmem : fp ∈ s.filehead)
    (hmarking : Marking s start (fp :: rest) none marks) :
    ∃ marks', System.markFile s marks fp = .ok marks' ∧ Marking s start rest none marks' := by
  -- The file is done with when no mark of it waits and it has a mark if it has a descriptor.
  have hdone : ∀ marks', Marking s start (fp :: rest) none marks' → marks'.defer fp = false →
      (s.count fp ≠ 0 → s.count fp ≠ s.msgcount fp → marks'.mark fp = true) →
      Marking s start rest none marks' := by
    intro marks' hmarking' hdefer hroot
    refine { hmarking' with fresh := fun g hg ↦ ?_, roots := fun f hf hzero hne ↦ ?_ }
    · have hother : g ≠ fp := fun h ↦ by
        rw [h, hdefer] at hg
        exact nomatch hg
      exact (hmarking'.fresh g hg).imp_left fun h ↦ (List.mem_cons.mp h).resolve_left hother
    · by_cases hfp : f = fp
      · exact .inr (hfp ▸ hroot (hfp ▸ hzero) (hfp ▸ hne))
      · exact (hmarking'.roots f hf hzero hne).imp_left fun h ↦
          (List.mem_cons.mp h).resolve_left hfp
  rw [System.markFile]
  by_cases hzero : s.count fp = 0
  · rw [if_pos hzero]
    refine ⟨marks, rfl, hdone marks hmarking ?_ fun hne ↦ absurd hzero hne⟩
    exact Bool.eq_false_iff.mpr fun h ↦ (hmarking.mem fp (hmarking.defer_mark fp h)).2 hzero
  rw [if_neg hzero]
  by_cases hdefer : marks.defer fp = true
  · rw [if_pos hdefer]
    have hmark := hmarking.defer_mark fp hdefer
    have hcleared : Marking s start (fp :: rest) (some fp)
        { marks with
          defer := Function.update marks.defer fp false
          unpDefer := marks.unpDefer - 1 } := by
      have hsub : ∀ g, Function.update marks.defer fp false g = true → marks.defer g = true := by
        intro g hg
        by_cases hgf : g = fp
        · rw [hgf, Function.update_self] at hg
          exact nomatch hg
        · rwa [Function.update_of_ne hgf] at hg
      refine { hmarking with
        defer_mark := fun g hg ↦ hmarking.defer_mark g (hsub g hg)
        unpDefer := ?_
        closed := fun f g hne hf hnot hq ↦ ?_
        fresh := fun g hg ↦ hmarking.fresh g (hsub g hg) }
      · have hthis := countP_update (p := marks.defer) hready.nodup hmem false
        have hunp := hmarking.unpDefer
        rw [hdefer] at hthis
        simp only [Bool.toNat_false, Bool.toNat_true] at hthis
        dsimp only
        omega
      · have hfp : f ≠ fp := fun h ↦ hne (congrArg some h)
        dsimp only at hnot
        rw [Function.update_of_ne hfp] at hnot
        exact hmarking.closed f g nofun hf hnot hq
    obtain ⟨marks', hrun, hmarking', hmark', hnot⟩ :=
      hcleared.markQueue hready hmem hmark (Function.update_self ..)
    exact ⟨marks', hrun, hdone marks' hmarking' hnot fun _ _ ↦ hmark'⟩
  rw [if_neg hdefer]
  rw [Bool.not_eq_true] at hdefer
  by_cases hskip : marks.mark fp = true ∨ s.count fp = s.msgcount fp
  · rw [if_pos hskip]
    exact ⟨marks, rfl, hdone marks hmarking hdefer fun _ hne ↦ hskip.resolve_right hne⟩
  · rw [if_neg hskip]
    have hnew : Marking s start (fp :: rest) (some fp)
        { marks with mark := Function.update marks.mark fp true } := by
      have hkeep : ∀ f, marks.mark f = true → Function.update marks.mark fp true f = true := by
        intro f hf
        by_cases hfp : f = fp
        · rw [hfp, Function.update_self]
        · rw [Function.update_of_ne hfp, hf]
      refine { hmarking with
        defer_mark := fun g hg ↦ hkeep g (hmarking.defer_mark g hg)
        mem := fun g hg ↦ ?_
        closed := fun f g hne hf hnot hq ↦ ?_
        mono := fun g hg ↦ hkeep g (hmarking.mono g hg)
        roots := fun f hf hnz hne ↦ (hmarking.roots f hf hnz hne).imp_right (hkeep f) }
      · by_cases hgf : g = fp
        · exact hgf ▸ ⟨hmem, hzero⟩
        · exact hmarking.mem g (by
            dsimp only at hg
            rwa [Function.update_of_ne hgf] at hg)
      · have hfp : f ≠ fp := fun h ↦ hne (congrArg some h)
        dsimp only at hf
        rw [Function.update_of_ne hfp] at hf
        exact hkeep g (hmarking.closed f g nofun hf hnot hq)
    obtain ⟨marks', hrun, hmarking', hmark', hnot⟩ :=
      hnew.markQueue hready hmem (Function.update_self ..) hdefer
    exact ⟨marks', hrun, hdone marks' hmarking' hnot fun _ _ ↦ hmark'⟩

/-- A pass over the files. -/
theorem Marking.pass {start : F → Bool} {files : List F} {marks : Marks F} (hready : Traversable s)
    (hsub : files ⊆ s.filehead) (hmarking : Marking s start files none marks) :
    ∃ marks', files.foldlM (System.markFile s) marks = .ok marks' ∧
      Marking s start [] none marks' := by
  induction files generalizing marks with
  | nil => exact ⟨marks, rfl, hmarking⟩
  | cons fp files ih =>
    obtain ⟨hmem, hrest⟩ := List.cons_subset.mp hsub
    obtain ⟨marks₁, hstep, hmarking₁⟩ := hmarking.markFile hready hmem
    obtain ⟨marks', hrun, hmarking'⟩ := ih hrest hmarking₁
    refine ⟨marks', ?_, hmarking'⟩
    rw [List.foldlM_cons, hstep]
    exact hrun

/-- The passes end, and what can be reached is marked then. -/
theorem markLoop_spec (fuel : ℕ) (marks : Marks F) (hready : Traversable s)
    (hmarking : Marking s marks.mark s.filehead none marks)
    (hfuel : s.filehead.countP (fun f ↦ !marks.mark f) < fuel) :
    ∃ marks', System.markLoop s fuel marks = .ok marks' ∧
      ∀ f, Reachable s f → marks'.mark f = true := by
  induction fuel generalizing marks with
  | zero => exact absurd hfuel (Nat.not_lt_zero _)
  | succ fuel ih =>
    obtain ⟨marks', hrun, hmarking'⟩ := hmarking.pass hready (List.Subset.refl _)
    rw [System.markLoop, hrun, ok_bind]
    by_cases hzero : marks'.unpDefer = 0
    · rw [if_pos hzero]
      have hnone : s.filehead.countP marks'.defer = 0 := by
        have hthis := hmarking'.unpDefer
        omega
      refine ⟨marks', rfl, fun f hreach ↦ ?_⟩
      induction hreach with
      | root hmem hcount hne =>
        exact (hmarking'.roots _ hmem hcount hne).resolve_left (List.not_mem_nil)
      | queued hreach hqueue ihf =>
        refine hmarking'.closed _ _ nofun ihf ?_ hqueue
        have hmem := (hmarking'.mem _ ihf).1
        exact Bool.eq_false_iff.mpr fun h ↦ List.countP_eq_zero.mp hnone _ hmem h
    · rw [if_neg hzero]
      refine ih marks' { hmarking' with mono := fun g hg ↦ hg, fresh := fun g hg ↦ ?_, roots := ?_ }
        ?_
      · exact .inl (hmarking'.mem g (hmarking'.defer_mark g hg)).1
      · exact fun f hf _ _ ↦ .inl hf
      · -- Some file was marked for the first time in this pass.
        have hpos : 0 < s.filehead.countP marks'.defer := by
          have hthis := hmarking'.unpDefer
          omega
        obtain ⟨g, hmem, hg⟩ := List.countP_pos_iff.mp hpos
        have hnew := (hmarking'.fresh g hg).resolve_left List.not_mem_nil
        have hmark := hmarking'.defer_mark g hg
        have hle : s.filehead.countP (fun f ↦ !marks'.mark f) + 1 ≤
            s.filehead.countP (fun f ↦ !marks.mark f) := by
          have hupdate := countP_update (p := fun f ↦ !marks.mark f) hready.nodup hmem false
          rw [show (!marks.mark g) = true by rw [hnew]; rfl] at hupdate
          have hsub : s.filehead.countP (fun f ↦ !marks'.mark f) ≤
              s.filehead.countP (Function.update (fun f ↦ !marks.mark f) g false) := by
            apply List.countP_mono_left
            intro f _ hf
            have hnot : marks'.mark f = false := by simpa using hf
            have hfg : f ≠ g := fun h ↦ by
              rw [h, hmark] at hnot
              exact nomatch hnot
            rw [Function.update_of_ne hfg]
            have hold : marks.mark f = false := Bool.eq_false_iff.mpr fun h ↦ by
              rw [hmarking'.mono f h] at hnot
              exact nomatch hnot
            rw [hold]
            rfl
          simp only [Bool.toNat_false, Bool.toNat_true] at hupdate
          omega
        omega

omit [DecidableEq S] in
/-- The last loop finds nothing to discard. -/
theorem sweep_eq {close : F → System F S → Except Fault (System F S)} {marked : F → Bool}
    {files : List F} (hmarked : ∀ f ∈ files, s.count f ≠ 0 → marked f = true) :
    System.sweep close marked files s = .ok s := by
  induction files with
  | nil => rfl
  | cons fp files ih =>
    have hrest := ih fun f hf ↦ hmarked f (List.mem_cons_of_mem fp hf)
    rw [System.sweep]
    have hskip : ¬(s.count fp ≠ 0 ∧ s.count fp = s.msgcount fp ∧ marked fp = false) := by
      rintro ⟨hne, -, hnot⟩
      rw [hmarked fp List.mem_cons_self hne] at hnot
      exact nomatch hnot
    rw [if_neg hskip, hrest, ite_self]

/-- `unp_gc` changes nothing where all open files can be reached. -/
theorem unpGc_eq {close : F → System F S → Except Fault (System F S)} (hready : Traversable s)
    (hgcing : s.unpGcing = false)
    (hreach : ∀ f ∈ s.filehead, s.count f ≠ 0 → Reachable s f) :
    System.unpGc close s = .ok s := by
  have hgc : { s with unpGcing := false } = s := by rw [← hgcing]
  have hready' : Traversable { s with unpGcing := true } :=
    ⟨hready.nodup, hready.socks, hready.queues⟩
  have hsame : ∀ f, Reachable s f → Reachable { s with unpGcing := true } f := by
    intro f hf
    induction hf with
    | root hmem hcount hne => exact .root hmem hcount hne
    | queued _ hqueue ih => exact .queued ih hqueue
  have hstart : Marking { s with unpGcing := true } (fun _ ↦ false) s.filehead none
      ⟨fun _ ↦ false, fun _ ↦ false, 0⟩ := by
    refine ⟨nofun, ?_, nofun, nofun, nofun, nofun, fun f hf _ _ ↦ .inl hf⟩
    simp
  obtain ⟨marks, hrun, hmarked⟩ := markLoop_spec (s.filehead.length + 1)
    ⟨fun _ ↦ false, fun _ ↦ false, 0⟩ hready' hstart (Nat.lt_succ_of_le List.countP_le_length)
  have hsweep : System.sweep close marks.mark s.filehead { s with unpGcing := true } =
      .ok { s with unpGcing := true } :=
    sweep_eq fun f hf hne ↦ hmarked f (hsame f (hreach f hf hne))
  rw [System.unpGc, hgcing, if_neg Bool.false_ne_true]
  dsimp only
  rw [hrun, ok_bind, hsweep]
  exact congrArg Except.ok hgc

end Bsd386.Un
