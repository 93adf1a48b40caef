import Bsd386.Kern.Mbufs.Basic
import Bsd386.Lib.Partial
import Mathlib.Data.List.Count

/-!
# Shared clusters

What `MCLFREE` and the reference that `m_copym` takes do to the clusters. As long as the entry of
`mclrefcnt` for a cluster covers the mbufs that refer to it and is at most 127, freeing some of
these mbufs does not touch the cluster of another one, and a copy that is given up leaves everything
as it was.
-/

namespace Bsd386.Kern.Mbufs

variable {s s' : Store} {m : Mbuf} {chain rest : Chain} {c d : ℕ}

/-! ## A `char` -/

theorem char_eq {i : ℤ} (hlow : -128 ≤ i) (hhigh : i < 128) : char i = i := by
  simp only [char, Int.bmod]
  split_ifs <;> omega

theorem le_char (i : ℤ) : -128 ≤ char i := by
  simp only [char, Int.bmod]
  split_ifs <;> omega

theorem char_lt (i : ℤ) : char i < 128 := by
  simp only [char, Int.bmod]
  split_ifs <;> omega

@[simp]
theorem char_char_add (i j : ℤ) : char (char i + j) = char (i + j) := by
  simp only [char, Int.bmod]
  split_ifs <;> omega

theorem char_ne_zero {i : ℤ} (hpos : 0 < i) (hlt : i < 256) : char i ≠ 0 := by
  simp only [char, Int.bmod]
  split_ifs <;> omega

@[simp]
theorem mtocl_inj : mtocl c = mtocl d ↔ c = d := by
  have htwice : ∀ k, mtocl k = 2 * k := fun k ↦ by
    have heq : mtocl k = k * 2048 / 1024 := rfl
    omega
  rw [htwice, htwice]
  omega

/-! ## References -/

/-- The number of mbufs that refer to the cluster `c`. -/
def refs (chain : Chain) (c : ℕ) : ℕ := chain.countP fun m ↦ m.ext = some c

@[simp]
theorem refs_nil : refs [] c = 0 := rfl

theorem refs_cons : refs (m :: chain) c = refs chain c + if m.ext = some c then 1 else 0 := by
  simp [refs, List.countP_cons]

@[simp]
theorem refs_append : refs (chain ++ rest) c = refs chain c + refs rest c :=
  List.countP_append

theorem refs_pos (hmem : m ∈ chain) (hext : m.ext = some c) : 0 < refs chain c :=
  List.countP_pos_iff.2 ⟨m, hmem, by simpa using hext⟩

theorem refs_eq_of_map (hmap : (chain.map Mbuf.ext).Perm (rest.map Mbuf.ext)) (c : ℕ) :
    refs chain c = refs rest c := by
  have hcount : ∀ l : Chain, refs l c = (l.map Mbuf.ext).countP (· = some c) := fun l ↦ by
    rw [List.countP_map]
    rfl
  rw [hcount, hcount, hmap.countP_eq]

/-- The entry for each cluster of the mbufs covers them. -/
def Held (s : Store) (chain : Chain) : Prop :=
  ∀ c, 0 < refs chain c →
    refs chain c ≤ s.mclrefcnt (mtocl c) ∧ s.mclrefcnt (mtocl c) ≤ 127

theorem Held.of_le (hheld : Held s chain) (hle : ∀ c, refs rest c ≤ refs chain c) :
    Held s rest := by
  intro c hpos
  have hcovers := hheld c (lt_of_lt_of_le hpos (hle c))
  have hrefs := hle c
  omega

/-- No cluster of the mbufs has changed. -/
def Keeps (s s' : Store) (chain : Chain) : Prop :=
  ∀ m ∈ chain, ∀ c, m.ext = some c → s'.clusters c = s.clusters c

theorem Keeps.refl (s : Store) (chain : Chain) : Keeps s s chain := fun _ _ _ _ ↦ rfl

theorem Keeps.trans {s'' : Store} (hfirst : Keeps s s' chain) (hsecond : Keeps s' s'' chain) :
    Keeps s s'' chain :=
  fun m hm c hc ↦ (hsecond m hm c hc).trans (hfirst m hm c hc)

theorem Keeps.of_refs (hkeeps : ∀ c, 0 < refs chain c → s'.clusters c = s.clusters c) :
    Keeps s s' chain :=
  fun _ hm c hc ↦ hkeeps c (refs_pos hm hc)

theorem Keeps.area (hkeeps : Keeps s s' chain) (hm : m ∈ chain) : m.area s' = m.area s := by
  unfold Mbuf.area
  cases hext : m.ext with
  | none => rfl
  | some c => exact congrArg Block.bytes (hkeeps m hm c hext)

theorem Keeps.mbuf_bytes (hkeeps : Keeps s s' chain) (hm : m ∈ chain) :
    m.bytes s' = m.bytes s := by
  rw [Mbuf.bytes, Mbuf.bytes, hkeeps.area hm]

theorem Keeps.bytes (hkeeps : Keeps s s' chain) : bytes s' chain = Mbufs.bytes s chain :=
  List.flatMap_congr fun _ hm ↦ hkeeps.mbuf_bytes hm

/-! ## Freeing -/

@[simp]
theorem decr_clusters : (s.decr c).clusters = s.clusters := rfl

@[simp]
theorem incr_clusters : (s.incr c).clusters = s.clusters := rfl

theorem decr_mclrefcnt :
    (s.decr c).mclrefcnt (mtocl d) =
      if d = c then char (s.mclrefcnt (mtocl d) - 1) else s.mclrefcnt (mtocl d) := by
  simp only [Store.decr, mtocl_inj]

theorem incr_mclrefcnt :
    (s.incr c).mclrefcnt (mtocl d) =
      if d = c then char (s.mclrefcnt (mtocl d) + 1) else s.mclrefcnt (mtocl d) := by
  simp only [Store.incr, mtocl_inj]

@[simp]
theorem push_mclrefcnt : (s.push c).mclrefcnt = s.mclrefcnt := rfl

theorem push_clusters (hne : d ≠ c) : (s.push c).clusters d = s.clusters d := if_neg hne

@[simp]
theorem mclfree_mclrefcnt : (mclfree c s).mclrefcnt = (s.decr c).mclrefcnt := by
  unfold mclfree
  split_ifs <;> rfl

theorem mclfree_clusters (hkept : d = c → char (s.mclrefcnt (mtocl c) - 1) ≠ 0) :
    (mclfree c s).clusters d = s.clusters d := by
  unfold mclfree
  split_ifs with hzero
  · apply push_clusters
    intro heq
    rw [decr_mclrefcnt, if_pos rfl] at hzero
    exact hkept heq hzero
  · rfl

theorem mfree_mclrefcnt :
    (mfree m s).mclrefcnt (mtocl d) =
      if m.ext = some d then char (s.mclrefcnt (mtocl d) - 1) else s.mclrefcnt (mtocl d) := by
  unfold mfree
  cases hext : m.ext with
  | none => simp
  | some c => simp [decr_mclrefcnt, eq_comm]

/-- Freeing one mbuf leaves the clusters of the others, and their entries still cover them. -/
theorem Held.mfree (hheld : Held s (m :: rest)) :
    Held (mfree m s) rest ∧ Keeps s (Mbufs.mfree m s) rest := by
  have hentry : ∀ d, 0 < refs rest d → 0 < refs (m :: rest) d := fun d hpos ↦ by
    rw [refs_cons]
    omega
  constructor
  · intro d hpos
    have hcovers := hheld d (hentry d hpos)
    rw [refs_cons] at hcovers
    rw [mfree_mclrefcnt]
    split_ifs at hcovers ⊢ with hext
    · rw [char_eq (by omega) (by omega)]
      omega
    · omega
  · apply Keeps.of_refs
    intro d hpos
    unfold Mbufs.mfree
    cases hext : m.ext with
    | none => rfl
    | some c =>
      apply mclfree_clusters
      intro heq
      have hcovers := hheld d (hentry d hpos)
      rw [refs_cons, if_pos (by rw [hext, heq]), heq] at hcovers
      rw [heq] at hpos
      exact char_ne_zero (by omega) (by omega)

/-- `m_freem` leaves the clusters of the mbufs outside of the chain. -/
theorem Held.mFreem (hheld : Held s (chain ++ rest)) :
    Held (mFreem chain s) rest ∧ Keeps s (Mbufs.mFreem chain s) rest := by
  induction chain generalizing s with
  | nil => exact ⟨hheld, Keeps.refl s rest⟩
  | cons m chain ih =>
    have hmfree := Held.mfree hheld
    have hchain := ih hmfree.1
    refine ⟨hchain.1, Keeps.trans ?_ hchain.2⟩
    exact fun n hn ↦ hmfree.2 n (List.mem_append_right chain hn)

/-! ## Taking references -/

/-- The reference that one more mbuf takes. -/
def share (m : Mbuf) (s : Store) : Store :=
  match m.ext with
  | none => s
  | some c => s.incr c

/-- The references that the mbufs of a chain take. -/
def shareAll : Chain → Store → Store
  | [], s => s
  | m :: chain, s => shareAll chain (share m s)

@[simp]
theorem share_clusters : (share m s).clusters = s.clusters := by
  unfold share
  cases m.ext <;> rfl

@[simp]
theorem share_mclfree : (share m s).mclfree = s.mclfree := by
  unfold share
  cases m.ext <;> rfl

theorem share_mclrefcnt :
    (share m s).mclrefcnt (mtocl d) =
      if m.ext = some d then char (s.mclrefcnt (mtocl d) + 1) else s.mclrefcnt (mtocl d) := by
  unfold share
  cases hext : m.ext with
  | none => simp
  | some c => simp [incr_mclrefcnt, eq_comm]

@[simp]
theorem shareAll_clusters : (shareAll chain s).clusters = s.clusters := by
  induction chain generalizing s with
  | nil => rfl
  | cons m chain ih => exact ih.trans share_clusters

@[simp]
theorem shareAll_mclfree : (shareAll chain s).mclfree = s.mclfree := by
  induction chain generalizing s with
  | nil => rfl
  | cons m chain ih => exact ih.trans share_mclfree

theorem shareAll_mclrefcnt (hlow : -128 ≤ s.mclrefcnt (mtocl d))
    (hhigh : s.mclrefcnt (mtocl d) < 128) :
    (shareAll chain s).mclrefcnt (mtocl d) = char (s.mclrefcnt (mtocl d) + refs chain d) := by
  induction chain generalizing s with
  | nil => simp [shareAll, char_eq hlow hhigh]
  | cons m chain ih =>
    rw [shareAll, refs_cons, ih, share_mclrefcnt]
    · split_ifs with hext
      · rw [char_char_add]
        congr 1
        omega
      · simp
    · rw [share_mclrefcnt]
      split_ifs
      · exact le_char _
      · exact hlow
    · rw [share_mclrefcnt]
      split_ifs
      · exact char_lt _
      · exact hhigh

theorem share_comm (m n : Mbuf) : share m (share n s) = share n (share m s) := by
  unfold share
  cases m.ext with
  | none => rfl
  | some c =>
    cases n.ext with
    | none => rfl
    | some d =>
      simp only [Store.incr, Store.mk.injEq, true_and, and_true]
      funext i
      split_ifs <;> rfl

theorem shareAll_share : shareAll chain (share m s) = share m (shareAll chain s) := by
  induction chain generalizing s with
  | nil => rfl
  | cons n chain ih => rw [shareAll, shareAll, share_comm, ih]

theorem mfree_share (hrange : ∀ c, m.ext = some c →
      0 ≤ s.mclrefcnt (mtocl c) + 128 ∧ s.mclrefcnt (mtocl c) ≤ 127 ∧ s.mclrefcnt (mtocl c) ≠ 0) :
    mfree m (share m s) = s := by
  unfold mfree share
  cases hext : m.ext with
  | none => rfl
  | some c =>
    have hentry := hrange c hext
    have hback : char (char (s.mclrefcnt (mtocl c) + 1) - 1) = s.mclrefcnt (mtocl c) := by
      rw [sub_eq_add_neg, char_char_add, char_eq (by omega) (by omega)]
      omega
    have hdecr : (s.incr c).decr c = s := by
      simp only [Store.decr, Store.incr]
      congr 1
      funext i
      split_ifs with hi
      · rw [hi, hback]
      · rfl
    simp only [mclfree, hdecr, hentry.2.2, if_false]

/-- The references of a copy that is given up are gone, and no cluster was taken for free. -/
theorem mFreem_shareAll (hheld : Held s rest) (hle : ∀ c, refs chain c ≤ refs rest c) :
    mFreem chain (shareAll chain s) = s := by
  induction chain generalizing s with
  | nil => rfl
  | cons m chain ih =>
    have hcons : ∀ c, refs chain c ≤ refs rest c := fun c ↦ by
      have hrefs := hle c
      rw [refs_cons] at hrefs
      omega
    rw [mFreem, shareAll, shareAll_share, mfree_share, ih hheld hcons]
    intro c hext
    have hrefs := hle c
    rw [refs_cons, if_pos hext] at hrefs
    have hcovers := hheld c (by omega)
    rw [shareAll_mclrefcnt (by omega) (by omega)]
    have hlow := le_char (s.mclrefcnt (mtocl c) + refs chain c)
    have hhigh := char_lt (s.mclrefcnt (mtocl c) + refs chain c)
    have hne : char (s.mclrefcnt (mtocl c) + refs chain c) ≠ 0 :=
      char_ne_zero (by omega) (by omega)
    exact ⟨by omega, by omega, hne⟩

/-! ## References of `m_copym` -/

theorem write_ext {pos : ℕ} {data : List UInt8} {m' : Mbuf} (hwrite : m.write pos data = .ok m') :
    m.ext = none ∧ m'.ext = none := by
  unfold Mbuf.write at hwrite
  split_ifs at hwrite with hfits
  rw [Except.ok.injEq] at hwrite
  rw [← hwrite]
  exact ⟨hfits.1, hfits.1⟩

theorem copyData_refs {n : Mbuf} {off len : ℕ} {copied : Mbuf × Store}
    (hcopy : copyData m n off len s = .ok copied) :
    copied.2 = share copied.1 s ∧ copied.1.ext = m.ext := by
  unfold copyData at hcopy
  cases hext : m.ext with
  | some d =>
    simp only [hext, Except.ok.injEq] at hcopy
    rw [← hcopy]
    exact ⟨rfl, rfl⟩
  | none =>
    simp only [hext] at hcopy
    obtain ⟨k, hwrite, hok⟩ := exists_of_bind_ok hcopy
    cases hok
    have hnone := (write_ext hwrite).2
    refine ⟨?_, hnone⟩
    unfold share
    rw [hnone]

/-- The copies refer to clusters of the chain, and each reference is counted. -/
theorem copyLoop_refs (copyhdr : Bool) (off len : ℕ) (gets : Gets) {made : Copies}
    (hloop : copyLoop chain copyhdr off len gets s = .ok made) :
    made.store = shareAll made.top s ∧ ∀ c, refs made.top c ≤ refs chain c := by
  induction chain generalizing copyhdr off len gets s made with
  | nil =>
    rw [copyLoop] at hloop
    split_ifs at hloop
    rw [Except.ok.injEq] at hloop
    rw [← hloop]
    exact ⟨rfl, fun _ ↦ Nat.le_refl _⟩
  | cons m chain ih =>
    rw [copyLoop] at hloop
    by_cases hzero : len = 0
    · rw [if_pos hzero, Except.ok.injEq] at hloop
      rw [← hloop]
      exact ⟨rfl, fun _ ↦ Nat.zero_le _⟩
    · rw [if_neg hzero] at hloop
      cases hget : (mget gets).1 with
      | none =>
        simp only [hget, Except.ok.injEq] at hloop
        rw [← hloop]
        exact ⟨rfl, fun _ ↦ Nat.zero_le _⟩
      | some n =>
        simp only [hget] at hloop
        obtain ⟨copied, hcopy, hloop⟩ := exists_of_bind_ok hloop
        obtain ⟨rest, hrest, hmade⟩ := exists_of_bind_ok hloop
        cases hmade
        have hcopied := copyData_refs hcopy
        have htail := ih _ _ _ _ hrest
        refine ⟨htail.1.trans (by rw [hcopied.1, shareAll]), fun c ↦ ?_⟩
        have hle := htail.2 c
        rw [refs_cons, refs_cons, hcopied.2]
        omega

theorem seek_split {msg : String} {off : ℕ} {start : Chain × ℕ}
    (hseek : seek msg chain off = .ok start) : ∃ skipped, chain = skipped ++ start.1 := by
  induction chain generalizing off with
  | nil =>
    rw [seek] at hseek
    split_ifs at hseek
    rw [Except.ok.injEq] at hseek
    exact ⟨[], by rw [← hseek]; rfl⟩
  | cons m chain ih =>
    rw [seek] at hseek
    split_ifs at hseek with hzero hlt
    · rw [Except.ok.injEq] at hseek
      exact ⟨[], by rw [← hseek]; rfl⟩
    · rw [Except.ok.injEq] at hseek
      exact ⟨[], by rw [← hseek]; rfl⟩
    · exact (ih hseek).imp' (m :: ·) fun skipped hchain ↦ by rw [hchain, List.cons_append]

/-- What `m_copym` returns has taken its references, or nothing has changed. -/
theorem mCopym_refs {off0 len : ℤ} {gets : Gets} {made : Chain × Store}
    (hheld : Held s chain) (hcopym : mCopym chain off0 len gets s = .ok made) :
    made = ([], s) ∨ made.2 = shareAll made.1 s ∧ ∀ c, refs made.1 c ≤ refs chain c := by
  unfold mCopym at hcopym
  by_cases hneg : off0 < 0 ∨ len < 0
  · rw [if_pos hneg] at hcopym
    cases hcopym
  · rw [if_neg hneg] at hcopym
    obtain ⟨start, hseek, hcopym⟩ := exists_of_bind_ok hcopym
    obtain ⟨copies, hloop, hcopym⟩ := exists_of_bind_ok hcopym
    obtain ⟨skipped, hchain⟩ := seek_split hseek
    obtain ⟨hstore, hstart⟩ := copyLoop_refs _ _ _ _ hloop
    have hle : ∀ c, refs copies.top c ≤ refs chain c := fun c ↦ by
      have hfirst := hstart c
      rw [hchain, refs_append]
      omega
    split_ifs at hcopym
    · cases hcopym
      exact Or.inl (by rw [hstore, mFreem_shareAll hheld hle])
    · cases hcopym
      exact Or.inr ⟨hstore, hle⟩

end Bsd386.Kern.Mbufs
