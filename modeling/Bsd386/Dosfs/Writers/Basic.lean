import Bsd386.Dosfs.Accounting
import Bsd386.Lib.Apart

/-!
# Writers of a volume

Processes that extend, truncate and create files of one volume, each of which holds its file locked.
Another one runs while a process sleeps in `bread`, `bwrite` or `getblk`; what a process reads of
its own file's chain is read in one step.
-/

namespace Bsd386.Dosfs

open Function

/-- Where a process sleeps, with the file that it has locked. -/
inductive Pc (F : Type*)
  | idle
  /-- In `fatentry` of `clusteralloc`, before the entry is set. `new` is whether `pcfs_mkdir` called
  it. -/
  | allocating (f : F) (new : Bool) (cn : ℕ)
  /-- There, behind it. -/
  | marking (f : F) (new : Bool) (cn : ℕ)
  /-- In `fatentry` of `extendfile`. -/
  | linking (f : F) (cn : ℕ)
  /-- In `fatentry` of `detrunc`. -/
  | cutting (f : F) (place eofentry : ℕ)
  /-- In `fatentry` of `clusterfree`, before the entry is set. -/
  | freeing (f : F) (cn : ℕ)
  /-- There, behind it. -/
  | freed (f : F) (cn next : ℕ)

/-- The file that a process has locked. -/
def Pc.file {F : Type*} : Pc F → Option F
  | .idle => none
  | .allocating f _ _ | .marking f _ _ | .linking f _ | .cutting f _ _ | .freeing f _ | .freed f _ _
      => some f

/-- The volume with its files, and where the processes are. -/
structure Writers (F P : Type*) where
  fat : Fat
  dep : F → Denode
  pc : P → Pc F

/-- What a process begins. -/
inductive Op (F : Type*)
  | extendfile (f : F)
  | mkdir (f : F)
  | detrunc (f : F) (length : ℕ) (b : Buffers)

/-- The file. -/
def Op.file {F : Type*} : Op F → F
  | .extendfile f | .mkdir f | .detrunc f _ _ => f

namespace Writers

variable {F P : Type*} [DecidableEq F] [DecidableEq P]

/-- A process moves on, and its file is changed. -/
def put (s : Writers F P) (p : P) (f : F) (dep : Denode) (pc : Pc F) : Writers F P :=
  { s with dep := update s.dep f dep, pc := update s.pc p pc }

/-- `clusteralloc` up to `fatentry`. -/
def pick (V : Volume) (s : Writers F P) (p : P) (f : F) (new : Bool) (dep : Denode) : Writers F P :=
  match findCluster V s.fat with
  | none => s.put p f dep .idle
  | some cn => s.put p f dep (if V.Has cn then .allocating f new cn else .idle)

/-- The loop of `freeclusterchain`. -/
def turn (V : Volume) (f : F) (cn : ℕ) : Pc F := if V.Has cn then .freeing f cn else .idle

/-- The end of `detrunc`. -/
def freeRest (V : Volume) (f : F) (chaintofree : ℕ) : Pc F :=
  if chaintofree ≠ 0 ∧ ¬Pcfseof chaintofree then turn V f chaintofree else .idle

/-- A process begins. -/
def begin (V : Volume) (s : Writers F P) (p : P) : Op F → Writers F P
  | .extendfile f =>
    if (s.dep f).root then s
    else if (s.dep f).lastfc.frcn = fceEmpty ∧ (s.dep f).startCluster ≠ 0 then
      match pcbmap V s.fat.entry (s.dep f) 0xffff with
      | (⟨some .E2BIG, _, _⟩, dep) => s.pick V p f false dep
      | (_, dep) => s.put p f dep .idle
    else s.pick V p f false (s.dep f)
  | .mkdir f => s.pick V p f true (s.dep f)
  | .detrunc f length b =>
    if (s.dep f).root then s
    else if (s.dep f).fileSize ≤ length then s
    else if length = 0 then
      s.put p f (fcPurge { s.dep f with startCluster := 0, fileSize := 0 } 0)
        (freeRest V f (s.dep f).startCluster)
    else
      match pcbmap V s.fat.entry (s.dep f) ((length - 1) / V.bpcluster) with
      | (⟨none, _, some eofentry⟩, dep) =>
        s.put p f (trimmed V length b s.fat.entry dep)
          (if V.Has eofentry then .cutting f ((length - 1) / V.bpcluster) eofentry else .idle)
      | (_, dep) => s.put p f dep .idle

/-- An entry of the table is set. -/
def setEntry (s : Writers F P) (cn newcontents : ℕ) : Writers F P :=
  { s with fat := { s.fat with entry := update s.fat.entry cn newcontents } }

/-- A process that has slept goes on to where it sleeps again. -/
def run (V : Volume) (s : Writers F P) (p : P) : Writers F P :=
  match s.pc p with
  | .idle => s
  | .allocating f new cn => (s.setEntry cn clustEofe).put p f (s.dep f) (.marking f new cn)
  | .marking f new cn =>
    let s := { s with fat := usemapAlloc cn s.fat }
    if new then s.put p f { s.dep f with startCluster := cn } .idle
    else if (s.dep f).startCluster = 0 then
      s.put p f { s.dep f with startCluster := cn, lastfc := fcSetcache 0 cn } .idle
    else s.put p f (s.dep f) (if V.Has (s.dep f).lastfc.fsrcn then .linking f cn else .freeing f cn)
  | .linking f cn =>
    (s.setEntry (s.dep f).lastfc.fsrcn cn).put p f
      { s.dep f with lastfc := fcSetcache ((s.dep f).lastfc.frcn + 1) cn } .idle
  | .cutting f place eofentry =>
    (s.setEntry eofentry clustEofe).put p f { s.dep f with lastfc := fcSetcache place eofentry }
      (freeRest V f (s.fat.entry eofentry))
  | .freeing f cn => (s.setEntry cn pcfsfree).put p f (s.dep f) (.freed f cn (s.fat.entry cn))
  | .freed f cn next => { s with fat := usemapFree cn s.fat }.put p f (s.dep f) (turn V f next)

/-- A process begins, or one that sleeps goes on. -/
inductive Event (F P : Type*)
  | begin (p : P) (op : Op F)
  | run (p : P)

def step (V : Volume) (s : Writers F P) : Event F P → Writers F P
  | .begin p op => s.begin V p op
  | .run p => s.run V p

/-- A process works on one file at a time, which it locks. A directory that is new has no clusters,
and only blocks of a file have buffers. -/
def Possible (V : Volume) (s : Writers F P) : Event F P → Prop
  | .run _ => True
  | .begin p op => s.pc p = .idle ∧ (∀ q, (s.pc q).file ≠ some op.file) ∧
    match op with
    | .extendfile _ => True
    | .mkdir f => (s.dep f).startCluster = 0 ∧ (s.dep f).root = false
    | .detrunc f _ b => ∀ bn ∈ b.dirty, ∃ l, ChainOf V s.fat.entry (s.dep f) l ∧ bn < l.length

/-- The states of a volume that was sound when nobody was at work. -/
inductive Reach (V : Volume) (allowed : Writers F P → Event F P → Prop) : Writers F P → Prop
  | start {fat : Fat} {dep : F → Denode} {chain : F → List ℕ} (sound : Sound V ⟨fat, dep⟩ chain) :
      Reach V allowed ⟨fat, dep, fun _ ↦ .idle⟩
  | step {s : Writers F P} (h : Reach V allowed s) (e : Event F P) (possible : Possible V s e)
      (ok : allowed s e) : Reach V allowed (s.step V e)

end Writers

end Bsd386.Dosfs

/-!
# What writers keep

Every cluster in use belongs to a file or to a process that has taken it and not yet given it away,
and a bit is clear while its cluster is free, but also while a process that has set its entry has
not marked it.
-/

namespace Bsd386.Dosfs

open Function

variable {F P : Type*} {V : Volume}

/-- The cluster that a process has chosen and not marked. -/
def Pc.picks : Pc F → Option ℕ
  | .allocating _ _ cn | .marking _ _ cn => some cn
  | _ => none

/-- The cluster of which a process has set the entry and not the bit. -/
def Pc.marks : Pc F → Option ℕ
  | .marking _ _ cn => some cn
  | _ => none

/-- The cluster of which a process has cleared the entry and not the bit. -/
def Pc.frees : Pc F → Option ℕ
  | .freed _ cn _ => some cn
  | _ => none

/-- The clusters that a process has: one that is new, or the rest of a chain. -/
def Held (V : Volume) (entry : ℕ → ℕ) (pc : Pc F) (l : List ℕ) : Prop :=
  match pc with
  | .marking _ _ cn | .linking _ cn => l = [cn] ∧ Pcfseof (entry cn)
  | .freeing _ cn => V.Has cn ∧ Chain entry Pcfseof cn l
  | .freed _ _ next => Chain entry Pcfseof next l
  | _ => l = []

/-- What a process knows about its file. -/
def Knows (dep : Denode) (l : List ℕ) : Pc F → Prop
  | .allocating _ new _ | .marking _ new _ => dep.root = false ∧
      if new then dep.startCluster = 0 else dep.startCluster ≠ 0 → dep.lastfc.frcn ≠ fceEmpty
  | .linking _ _ => dep.startCluster ≠ 0 ∧ dep.lastfc.frcn ≠ fceEmpty
  | .cutting _ place eofentry => l[place]? = some eofentry ∧ Before dep (place + 1)
  | _ => True

namespace Writers

/-- The files and the processes have clusters of their own. -/
structure Owned (V : Volume) (s : Writers F P) (own : F ⊕ P → List ℕ) : Prop where
  file : ∀ f, Holds V s.fat.entry (s.dep f) (own (.inl f))
  held : ∀ p, Held V s.fat.entry (s.pc p) (own (.inr p))
  has : ∀ p, ∀ c ∈ own (.inr p), V.Has c
  nodup : ∀ p, (own (.inr p)).Nodup
  apart : Apart own

/-- The bit of a cluster is to be clear. -/
def Clear (s : Writers F P) (cn : ℕ) : Prop :=
  (s.fat.entry cn = pcfsfree ∧ ∀ p, (s.pc p).frees ≠ some cn) ∨ ∃ p, (s.pc p).marks = some cn

/-- The clear bits. -/
def clearBits (V : Volume) (fat : Fat) : Finset ℕ :=
  (Finset.Icc clustFirst V.maxcluster).filter fun cn ↦ Bitmap.get fat.inusemap cn = false

/-- The bitmap and the count, and that no two processes are at one cluster. -/
structure Marked (V : Volume) (s : Writers F P) : Prop where
  outside : ∀ c, ¬V.Has c → c / 8 ≤ V.maxcluster / 8 → Bitmap.get s.fat.inusemap c = true
  bit : ∀ c, V.Has c → (Bitmap.get s.fat.inusemap c = false ↔ s.Clear c)
  count : s.fat.freeclustercount = (clearBits V s.fat).card
  frees : ∀ p c, (s.pc p).frees = some c →
    V.Has c ∧ s.fat.entry c = pcfsfree ∧ ∀ q, (s.pc q).frees = some c → q = p
  picks : ∀ p c, (s.pc p).picks = some c → V.Has c ∧ ∀ q, (s.pc q).picks = some c → q = p
  alloc : ∀ p f new c, s.pc p = .allocating f new c →
    s.fat.entry c = pcfsfree ∧ Bitmap.get s.fat.inusemap c = false

/-- What holds while every process finds its cluster for itself. -/
structure Inv (V : Volume) (s : Writers F P) (own : F ⊕ P → List ℕ) : Prop where
  owned : Owned V s own
  marked : Marked V s
  knows : ∀ p f, (s.pc p).file = some f → Knows (s.dep f) (own (.inl f)) (s.pc p)
  lock : ∀ p q f, (s.pc p).file = some f → (s.pc q).file = some f → p = q

variable {s s' : Writers F P} {own own' : F ⊕ P → List ℕ} {p q : P} {f g : F} {c cn : ℕ}

theorem mem_clearBits {fat : Fat} : c ∈ clearBits V fat ↔
    V.Has c ∧ Bitmap.get fat.inusemap c = false := by
  rw [clearBits, Finset.mem_filter, Finset.mem_Icc]
  rfl

/-! ### Clusters -/

/-- The entries of clusters that a process has are set. -/
theorem Owned.held_ne_free (h : Owned V s own) (hc : c ∈ own (.inr p)) :
    s.fat.entry c ≠ pcfsfree := by
  have hheld := h.held p
  have hchain : ∃ a, Chain s.fat.entry Pcfseof a (own (.inr p)) := by
    cases hpc : s.pc p with
    | idle | allocating _ _ _ | cutting _ _ _ =>
      rw [hpc] at hheld
      rw [show own (.inr p) = [] from hheld] at hc
      exact absurd hc List.not_mem_nil
    | marking _ _ cn | linking _ cn =>
      rw [hpc] at hheld
      refine ⟨cn, ?_⟩
      rw [hheld.1]
      exact ⟨rfl, hheld.2⟩
    | freeing _ cn =>
      rw [hpc] at hheld
      exact ⟨cn, hheld.2⟩
    | freed _ _ next =>
      rw [hpc] at hheld
      exact ⟨next, hheld⟩
  obtain ⟨a, hchain⟩ := hchain
  exact Chain.ne_free hchain (h.has p) hc

/-- The entries of clusters that somebody has are set. -/
theorem Owned.ne_free (h : Owned V s own) {a : F ⊕ P} (hc : c ∈ own a) :
    s.fat.entry c ≠ pcfsfree := by
  cases a with
  | inl f => exact (h.file f).ne_free hc
  | inr p => exact h.held_ne_free hc

theorem Held.congr {entry entry' : ℕ → ℕ} {pc : Pc F} {l : List ℕ} (h : Held V entry pc l)
    (hentry : ∀ c ∈ l, entry' c = entry c) : Held V entry' pc l := by
  cases pc with
  | idle | allocating _ _ _ | cutting _ _ _ => exact h
  | marking _ _ cn | linking _ cn =>
    refine ⟨h.1, ?_⟩
    rw [hentry cn (by rw [h.1]; exact List.mem_singleton_self cn)]
    exact h.2
  | freeing _ cn => exact ⟨h.1, h.2.congr hentry⟩
  | freed _ _ next => exact Chain.congr h hentry

/-- A step of a process changes what its file and itself have. -/
theorem Owned.change (h : Owned V s own) (p : P) (f : F) (hdep : ∀ g, g ≠ f → s'.dep g = s.dep g)
    (hpc : ∀ q, q ≠ p → s'.pc q = s.pc q)
    (hown : ∀ a, a ≠ .inl f → a ≠ .inr p → own' a = own a)
    (hentry : ∀ c, c ∉ own (.inl f) → c ∉ own (.inr p) → s.fat.entry c ≠ pcfsfree →
      s'.fat.entry c = s.fat.entry c)
    (hfile : Holds V s'.fat.entry (s'.dep f) (own' (.inl f)))
    (hheld : Held V s'.fat.entry (s'.pc p) (own' (.inr p)))
    (hhas : ∀ c ∈ own' (.inr p), V.Has c) (hnodup : (own' (.inr p)).Nodup)
    (hsub : ∀ c, c ∈ own' (.inl f) ∨ c ∈ own' (.inr p) →
      c ∈ own (.inl f) ∨ c ∈ own (.inr p) ∨ s.fat.entry c = pcfsfree)
    (hdisj : ∀ c ∈ own' (.inl f), c ∉ own' (.inr p)) : Owned V s' own' := by
  have hothers : ∀ a, a ≠ .inl f → a ≠ .inr p → ∀ c ∈ own' a, s'.fat.entry c = s.fat.entry c := by
    intro a haf hap c hc
    rw [hown a haf hap] at hc
    exact hentry c (h.apart a _ haf c hc) (h.apart a _ hap c hc) (h.ne_free hc)
  refine ⟨fun g ↦ ?_, fun q ↦ ?_, fun q ↦ ?_, fun q ↦ ?_, ?_⟩
  · by_cases hg : g = f
    · rw [hg]
      exact hfile
    · have hgf : (Sum.inl g : F ⊕ P) ≠ .inl f := fun heq ↦ hg (Sum.inl.inj heq)
      have hkeep := hothers (.inl g) hgf Sum.inl_ne_inr
      rw [hown (.inl g) hgf Sum.inl_ne_inr] at hkeep ⊢
      rw [hdep g hg]
      exact (h.file g).congr hkeep
  · by_cases hq : q = p
    · rw [hq]
      exact hheld
    · have hqp : (Sum.inr q : F ⊕ P) ≠ .inr p := fun heq ↦ hq (Sum.inr.inj heq)
      have hkeep := hothers (.inr q) Sum.inr_ne_inl hqp
      rw [hown (.inr q) Sum.inr_ne_inl hqp] at hkeep ⊢
      rw [hpc q hq]
      exact Held.congr (h.held q) hkeep
  · by_cases hq : q = p
    · rw [hq]
      exact hhas
    · rw [hown (.inr q) Sum.inr_ne_inl fun heq ↦ hq (Sum.inr.inj heq)]
      exact h.has q
  · by_cases hq : q = p
    · rw [hq]
      exact hnodup
    · rw [hown (.inr q) Sum.inr_ne_inl fun heq ↦ hq (Sum.inr.inj heq)]
      exact h.nodup q
  · refine h.apart.move (fun a haf hap ↦ hown a haf hap) (fun c hc ↦ ?_) hdisj
    rcases hsub c hc with hmem | hmem | hfree
    · exact .inl hmem
    · exact .inr (.inl hmem)
    · exact .inr (.inr fun a hmem ↦ h.ne_free hmem hfree)

/-! ### Bits -/

/-- A bit is to be clear as before where a step does not concern its cluster. -/
theorem clear_congr (hpc : ∀ q, q ≠ p → s'.pc q = s.pc q)
    (hentry : s'.fat.entry c = pcfsfree ↔ s.fat.entry c = pcfsfree)
    (hfrees : (s'.pc p).frees = some c ↔ (s.pc p).frees = some c)
    (hmarks : (s'.pc p).marks = some c ↔ (s.pc p).marks = some c) : s'.Clear c ↔ s.Clear c := by
  have hfrees' : ∀ q, (s'.pc q).frees = some c ↔ (s.pc q).frees = some c := by
    intro q
    by_cases hq : q = p
    · rw [hq]
      exact hfrees
    · rw [hpc q hq]
  have hmarks' : ∀ q, (s'.pc q).marks = some c ↔ (s.pc q).marks = some c := by
    intro q
    by_cases hq : q = p
    · rw [hq]
      exact hmarks
    · rw [hpc q hq]
  simp only [Clear, ne_eq, hentry, hfrees', hmarks']

theorem Pc.picks_of_marks {pc : Pc F} (h : pc.marks = some c) : pc.picks = some c := by
  cases pc <;> first | exact h | cases h

/-- A cluster that is marked as used is no longer counted. -/
theorem clearBits_alloc {fat : Fat} (hcn : V.Has cn) (hclear : Bitmap.get fat.inusemap cn = false)
    (hcount : fat.freeclustercount = (clearBits V fat).card) :
    (usemapAlloc cn fat).freeclustercount = (clearBits V (usemapAlloc cn fat)).card := by
  have hbits : clearBits V (usemapAlloc cn fat) = (clearBits V fat).erase cn := by
    ext d
    rw [Finset.mem_erase, mem_clearBits, mem_clearBits]
    change V.Has d ∧ Bitmap.get (Bitmap.set fat.inusemap cn) d = false ↔ _
    rw [Bitmap.get_set (by decide), Bool.or_eq_false_iff, decide_eq_false_iff_not]
    tauto
  have hcard := Finset.card_erase_add_one (mem_clearBits.mpr ⟨hcn, hclear⟩)
  rw [hbits]
  change fat.freeclustercount - 1 = _
  rw [hcount]
  omega

/-- A cluster that is marked as free is counted. -/
theorem clearBits_free {fat : Fat} (hcn : V.Has cn) (hset : Bitmap.get fat.inusemap cn = true)
    (hcount : fat.freeclustercount = (clearBits V fat).card) :
    (usemapFree cn fat).freeclustercount = (clearBits V (usemapFree cn fat)).card := by
  have hnot : cn ∉ clearBits V fat := fun hmem ↦ by
    rw [(mem_clearBits.mp hmem).2] at hset
    cases hset
  have hbits : clearBits V (usemapFree cn fat) = insert cn (clearBits V fat) := by
    ext d
    rw [Finset.mem_insert, mem_clearBits, mem_clearBits]
    change V.Has d ∧ Bitmap.get (Bitmap.clear fat.inusemap cn) d = false ↔ _
    rw [Bitmap.get_clear (by decide), Bool.and_eq_false_iff, Bool.not_eq_false', decide_eq_true_iff]
    constructor
    · rintro ⟨hd, hdc | hd'⟩
      · exact .inl hdc
      · exact .inr ⟨hd, hd'⟩
    · rintro (hdc | hd)
      · exact ⟨hdc ▸ hcn, .inl hdc⟩
      · exact ⟨hd.1, .inr hd.2⟩
  rw [hbits, Finset.card_insert_of_notMem hnot]
  change fat.freeclustercount + 1 = _
  rw [hcount]
  omega

/-- The cluster that a process is marking is its own. -/
theorem Owned.mem_of_marks (h : Owned V s own) (hmarks : (s.pc p).marks = some c) :
    c ∈ own (.inr p) := by
  have hheld := h.held p
  cases hpc : s.pc p with
  | marking f new cn =>
    rw [hpc] at hmarks hheld
    cases hmarks
    rw [hheld.1]
    exact List.mem_singleton_self c
  | idle | allocating _ _ _ | linking _ _ | cutting _ _ _ | freeing _ _ | freed _ _ _ =>
    rw [hpc] at hmarks
    cases hmarks

/-- A step that neither sets a bit nor uses or frees a cluster. -/
theorem Marked.same (h : Marked V s) (hpc : ∀ q, q ≠ p → s'.pc q = s.pc q)
    (hbits : s'.fat.inusemap = s.fat.inusemap)
    (hcount : s'.fat.freeclustercount = s.fat.freeclustercount)
    (hentry : ∀ c, s'.fat.entry c = pcfsfree ↔ s.fat.entry c = pcfsfree)
    (hfrees : (s'.pc p).frees = none ∧ (s.pc p).frees = none)
    (hmarks : (s'.pc p).marks = none ∧ (s.pc p).marks = none)
    (hpicks : ∀ c, (s'.pc p).picks = some c → V.Has c ∧ ∀ q, q ≠ p → (s.pc q).picks ≠ some c)
    (halloc : ∀ f new c, s'.pc p = .allocating f new c →
      s.fat.entry c = pcfsfree ∧ Bitmap.get s.fat.inusemap c = false) : Marked V s' := by
  have hnone : ∀ c, (s'.pc p).frees ≠ some c ∧ (s'.pc p).marks ≠ some c := by
    intro c
    rw [hfrees.1, hmarks.1]
    exact ⟨(Option.some_ne_none c).symm, (Option.some_ne_none c).symm⟩
  refine ⟨?_, fun c hc ↦ ?_, ?_, fun q c hq ↦ ?_, fun q c hq ↦ ?_, fun q f new c hq ↦ ?_⟩
  · rw [hbits]
    exact h.outside
  · rw [hbits, h.bit c hc]
    exact (clear_congr hpc (hentry c) (by rw [hfrees.1, hfrees.2])
      (by rw [hmarks.1, hmarks.2])).symm
  · rw [clearBits, hbits, hcount]
    exact h.count
  · have hqp : q ≠ p := fun heq ↦ (hnone c).1 (heq ▸ hq)
    rw [hpc q hqp] at hq
    obtain ⟨hc, hfree, hunique⟩ := h.frees q c hq
    refine ⟨hc, (hentry c).mpr hfree, fun r hr ↦ ?_⟩
    have hrp : r ≠ p := fun heq ↦ (hnone c).1 (heq ▸ hr)
    rw [hpc r hrp] at hr
    exact hunique r hr
  · by_cases hqp : q = p
    · rw [hqp] at hq ⊢
      obtain ⟨hc, hothers⟩ := hpicks c hq
      refine ⟨hc, fun r hr ↦ ?_⟩
      by_contra hrp
      rw [hpc r hrp] at hr
      exact hothers r hrp hr
    · rw [hpc q hqp] at hq
      obtain ⟨hc, hunique⟩ := h.picks q c hq
      refine ⟨hc, fun r hr ↦ ?_⟩
      by_cases hrp : r = p
      · rw [hrp] at hr
        exact absurd hq ((hpicks c hr).2 q hqp)
      · rw [hpc r hrp] at hr
        exact hunique r hr
  · rw [hentry, hbits]
    by_cases hqp : q = p
    · rw [hqp] at hq
      exact halloc f new c hq
    · rw [hpc q hqp] at hq
      exact h.alloc q f new c hq

/-- What a step of a process does to the rest. -/
theorem Inv.change (h : Inv V s own) (p : P) (f : F) (hpc : ∀ q, q ≠ p → s'.pc q = s.pc q)
    (hdep : ∀ g, g ≠ f → s'.dep g = s.dep g)
    (hown : ∀ a, a ≠ .inl f → a ≠ .inr p → own' a = own a)
    (halone : ∀ q, q ≠ p → (s.pc q).file ≠ some f) (howned : Owned V s' own')
    (hmarked : Marked V s')
    (hfile : ∀ g, (s'.pc p).file = some g → g = f)
    (hknows : Knows (s'.dep f) (own' (.inl f)) (s'.pc p)) : Inv V s' own' := by
  refine ⟨howned, hmarked, fun q g hq ↦ ?_, fun q r g hq hr ↦ ?_⟩
  · by_cases hqp : q = p
    · rw [hqp] at hq ⊢
      rw [hfile g hq]
      exact hknows
    · rw [hpc q hqp] at hq ⊢
      have hgf : g ≠ f := fun heq ↦ halone q hqp (heq ▸ hq)
      rw [hdep g hgf, hown (.inl g) (fun heq ↦ hgf (Sum.inl.inj heq)) Sum.inl_ne_inr]
      exact h.knows q g hq
  · by_cases hqp : q = p
    · by_cases hrp : r = p
      · rw [hqp, hrp]
      · rw [hqp] at hq
        rw [hpc r hrp, hfile g hq] at hr
        exact absurd hr (halone r hrp)
    · by_cases hrp : r = p
      · rw [hrp] at hr
        rw [hpc q hqp, hfile g hr] at hq
        exact absurd hq (halone q hqp)
      · rw [hpc q hqp] at hq
        rw [hpc r hrp] at hr
        exact h.lock q r g hq hr

end Writers

end Bsd386.Dosfs
