import Bsd386.Kern.Mbufs.Sharing

/-!
# Chains as byte strings

An mbuf is well formed if its data is in its area or in its cluster. The bytes of a chain of such
mbufs are the data of one after the other, and the lengths in the mbufs say where a position in them
is. `m_copydata` and `m_adj` do to the bytes what they say.
-/

namespace Bsd386.Kern.Mbufs

variable {s s' : Store} {m n : Mbuf} {chain rest : Chain} {off len : ℕ}

/-! ## Well-formed mbufs -/

/-- The data is in the area, and behind the packet header. -/
def Mbuf.Fits (s : Store) (m : Mbuf) : Prop :=
  m.mData + m.mLen ≤ (m.area s).length ∧ (m.ext = none → m.start ≤ m.mData)

/-- All the mbufs are well formed. -/
def AllFit (s : Store) (chain : Chain) : Prop := ∀ m ∈ chain, m.Fits s

/-- The length in the packet header of a chain. -/
def header : Chain → Option ℤ
  | [] => none
  | m :: _ => m.pkthdr

/-- The length in the packet header, if there is one, is the length of the chain. -/
def Headed (chain : Chain) : Prop := ∀ h, header chain = some h → h = count chain

theorem area_of_none (hext : m.ext = none) : m.area s = m.mDat.bytes := by
  unfold Mbuf.area
  rw [hext]

theorem Mbuf.fits_of_none (hext : m.ext = none) (hstart : m.start ≤ m.mData)
    (hend : m.mData + m.mLen ≤ mlen) : m.Fits s := by
  rw [Mbuf.Fits, area_of_none hext, m.mDat.size]
  exact ⟨hend, fun _ ↦ hstart⟩

theorem Mbuf.bytes_of_none (hext : m.ext = none) :
    m.bytes s = (m.mDat.bytes.drop m.mData).take m.mLen := by
  rw [Mbuf.bytes, area_of_none hext]

theorem area_of_clusters (hclusters : s'.clusters = s.clusters) (m : Mbuf) :
    m.area s' = m.area s := by
  unfold Mbuf.area
  rw [hclusters]

theorem area_length_le : (m.area s).length ≤ mclbytes := by
  unfold Mbuf.area
  cases m.ext with
  | none => exact Nat.le_trans (Nat.le_of_eq m.mDat.size) (by decide)
  | some c => exact Nat.le_of_eq (s.clusters c).size

theorem AllFit.of_clusters (hfit : AllFit s chain) (hclusters : s'.clusters = s.clusters) :
    AllFit s' chain := fun m hm ↦ by
  rw [Mbuf.Fits, area_of_clusters hclusters]
  exact hfit m hm

theorem AllFit.keeps (hfit : AllFit s chain) (hkeeps : Keeps s s' chain) : AllFit s' chain :=
  fun m hm ↦ by
    rw [Mbuf.Fits, hkeeps.area hm]
    exact hfit m hm

theorem bytes_of_clusters (hclusters : s'.clusters = s.clusters) (chain : Chain) :
    bytes s' chain = bytes s chain :=
  Keeps.bytes fun _ _ c _ ↦ congrFun hclusters c

@[simp]
theorem bytes_nil : bytes s [] = [] := rfl

@[simp]
theorem bytes_cons : bytes s (m :: chain) = m.bytes s ++ bytes s chain := rfl

@[simp]
theorem bytes_append : bytes s (chain ++ rest) = bytes s chain ++ bytes s rest :=
  List.flatMap_append

@[simp]
theorem count_nil : count [] = 0 := rfl

@[simp]
theorem count_cons : count (m :: chain) = m.mLen + count chain := rfl

@[simp]
theorem count_append : count (chain ++ rest) = count chain + count rest := by
  simp [count]

theorem Mbuf.Fits.length (hfit : m.Fits s) : (m.bytes s).length = m.mLen := by
  have hlength := hfit.1
  rw [Mbuf.bytes, List.length_take, List.length_drop]
  omega

theorem Mbuf.Fits.mLen_le (hfit : m.Fits s) : m.mLen ≤ mclbytes := by
  have hlength := hfit.1
  have harea : (m.area s).length ≤ mclbytes := area_length_le
  omega

theorem AllFit.length (hfit : AllFit s chain) : (bytes s chain).length = count chain := by
  induction chain with
  | nil => rfl
  | cons m chain ih =>
    rw [bytes_cons, List.length_append, (hfit m List.mem_cons_self).length,
      ih fun n hn ↦ hfit n (List.mem_cons_of_mem m hn), count_cons]

theorem AllFit.tail (hfit : AllFit s (m :: chain)) : AllFit s chain :=
  fun n hn ↦ hfit n (List.mem_cons_of_mem m hn)

theorem AllFit.append_right (hfit : AllFit s (chain ++ rest)) : AllFit s rest :=
  fun n hn ↦ hfit n (List.mem_append_right chain hn)

theorem AllFit.append_left (hfit : AllFit s (chain ++ rest)) : AllFit s chain :=
  fun n hn ↦ hfit n (List.mem_append_left rest hn)

theorem AllFit.cons (hm : m.Fits s) (hfit : AllFit s chain) : AllFit s (m :: chain) := by
  intro n hn
  rcases List.mem_cons.1 hn with rfl | hmem
  · exact hm
  · exact hfit n hmem

/-- Data that is taken from the middle of an mbuf. -/
theorem Mbuf.bytes_slice (hle : off + len ≤ m.mLen) :
    ((m.area s).drop (m.mData + off)).take len = ((m.bytes s).drop off).take len := by
  rw [Mbuf.bytes, List.drop_take, List.drop_drop, List.take_take, min_eq_left (by omega)]

/-! ## Finding the start -/

/-- A position of a chain and the mbuf that it is in. -/
structure At (chain : Chain) (off : ℕ) (start : Chain × ℕ) : Prop where
  split : ∃ skipped, chain = skipped ++ start.1 ∧ off = count skipped + start.2
  inside : ∀ m ∈ start.1.head?, start.2 ≤ m.mLen
  last : start.1 = [] → start.2 = 0

theorem seek_spec (msg : String) (off : ℕ) (hle : off ≤ count chain) :
    ∃ start, seek msg chain off = .ok start ∧ At chain off start := by
  induction chain generalizing off with
  | nil =>
    have hzero : off = 0 := Nat.le_zero.1 hle
    exact ⟨([], 0), if_pos hzero, ⟨[], rfl, hzero⟩, by simp, fun _ ↦ rfl⟩
  | cons m chain ih =>
    rw [seek]
    split_ifs with hzero hlt
    · exact ⟨(m :: chain, 0), rfl, ⟨[], rfl, hzero⟩, by simp, fun _ ↦ rfl⟩
    · refine ⟨(m :: chain, off), rfl, ⟨[], rfl, by simp⟩, ?_, by simp⟩
      intro n hn
      rw [List.head?_cons, Option.mem_def, Option.some.injEq] at hn
      rw [← hn]
      exact Nat.le_of_lt hlt
    · rw [count_cons] at hle
      have htail := ih (off - m.mLen) (by omega)
      refine htail.imp fun start hstart ↦ ⟨hstart.1, ?_, hstart.2.inside, hstart.2.last⟩
      refine hstart.2.split.imp' (m :: ·) fun skipped hsplit ↦ ?_
      rw [count_cons, List.cons_append, ← hsplit.1]
      exact ⟨rfl, by omega⟩

theorem At.bytes {start : Chain × ℕ} (hat : At chain off start) (hfit : AllFit s chain) :
    AllFit s start.1 ∧ (Mbufs.bytes s chain).drop off = (Mbufs.bytes s start.1).drop start.2 ∧
      count chain - off = count start.1 - start.2 := by
  obtain ⟨skipped, hchain, hoff⟩ := hat.split
  rw [hchain] at hfit ⊢
  refine ⟨hfit.append_right, ?_, ?_⟩
  · rw [bytes_append, hoff, ← hfit.append_left.length, ← List.drop_drop, List.drop_left]
  · rw [count_append]
    omega

/-! ## `m_copydata` -/

theorem copydataLoop_spec (off len : ℕ) (hfit : AllFit s chain)
    (hinside : ∀ m ∈ chain.head?, off ≤ m.mLen) (hlen : off + len ≤ count chain) :
    copydataLoop s chain off len = .ok (((bytes s chain).drop off).take len) := by
  induction chain generalizing off len with
  | nil =>
    rw [count_nil] at hlen
    have hzero : len = 0 := by omega
    rw [copydataLoop, if_pos hzero]
    simp
  | cons m chain ih =>
    rw [copydataLoop]
    split_ifs with hzero
    · simp [hzero]
    · have hoff : off ≤ m.mLen := hinside m rfl
      rw [count_cons] at hlen
      have hrest := ih 0 (len - min (m.mLen - off) len) hfit.tail
        (fun _ _ ↦ Nat.zero_le _) (by omega)
      simp only [hrest, bind, Except.bind, pure, Except.pure]
      rw [Mbuf.bytes_slice (by omega), bytes_cons, List.drop_append, List.take_append,
        List.length_drop, (hfit m List.mem_cons_self).length, Nat.sub_eq_zero_of_le hoff]
      congr 2
      · rcases le_total (m.mLen - off) len with hle | hle
        · rw [min_eq_left hle, List.take_of_length_le, List.take_of_length_le]
          all_goals rw [List.length_drop, (hfit m List.mem_cons_self).length]
          exact hle
        · rw [min_eq_right hle]
      · congr 1
        omega

theorem mCopydata_spec (hfit : AllFit s chain) (hlen : off + len ≤ count chain) :
    mCopydata chain off len s = .ok (((bytes s chain).drop off).take len) := by
  obtain ⟨start, hseek, hat⟩ :=
    seek_spec "m_copydata" off (Nat.le_trans (Nat.le_add_right off len) hlen)
  have hbytes := hat.bytes hfit
  have hinside : start.2 + len ≤ count start.1 := by
    obtain ⟨skipped, hchain, hoff⟩ := hat.split
    rw [hchain, count_append] at hlen
    omega
  have hloop := copydataLoop_spec start.2 len hbytes.1 hat.inside hinside
  have hneg : ¬((off : ℤ) < 0 ∨ (len : ℤ) < 0) := by omega
  simp only [mCopydata, hneg, if_false, Int.toNat_natCast, hseek, hloop, hbytes.2.1, bind,
    Except.bind]

/-! ## `m_adj` -/

/-- Data that is left of an mbuf from which some is taken in front. -/
theorem Mbuf.Fits.trim (hfit : m.Fits s) (hle : len ≤ m.mLen) :
    Mbuf.Fits s { m with mLen := m.mLen - len, mData := m.mData + len } ∧
      Mbuf.bytes s { m with mLen := m.mLen - len, mData := m.mData + len } =
        (m.bytes s).drop len := by
  have hlength := hfit.1
  refine ⟨⟨?_, fun hext ↦ Nat.le_add_right_of_le (hfit.2 hext)⟩, ?_⟩
  · change m.mData + len + (m.mLen - len) ≤ (m.area s).length
    omega
  · change ((m.area s).drop (m.mData + len)).take (m.mLen - len) = _
    rw [Mbuf.bytes, List.drop_take, List.drop_drop]

/-- Data that is left of an mbuf from which some is taken behind. -/
theorem Mbuf.Fits.shrink (hfit : m.Fits s) (hle : len ≤ m.mLen) :
    Mbuf.Fits s { m with mLen := len } ∧
      Mbuf.bytes s { m with mLen := len } = (m.bytes s).take len := by
  have hlength := hfit.1
  refine ⟨⟨?_, hfit.2⟩, ?_⟩
  · change m.mData + len ≤ (m.area s).length
    omega
  · change ((m.area s).drop m.mData).take len = _
    rw [Mbuf.bytes, List.take_take, min_eq_left hle]

theorem trimFront_spec (hfit : AllFit s chain) (len : ℕ) :
    AllFit s (trimFront chain len).1 ∧
      bytes s (trimFront chain len).1 = (bytes s chain).drop len ∧
      (trimFront chain len).2 = len - count chain := by
  induction chain generalizing len with
  | nil => exact ⟨hfit, by simp [trimFront], rfl⟩
  | cons m chain ih =>
    have hm : m.Fits s := hfit m List.mem_cons_self
    rw [trimFront, bytes_cons, List.drop_append, hm.length, count_cons]
    split_ifs with hzero hle
    · subst hzero
      exact ⟨hfit, by simp, by simp⟩
    · have htail := ih hfit.tail (len - m.mLen)
      have hempty := hm.shrink (Nat.zero_le m.mLen)
      refine ⟨htail.1.cons hempty.1, ?_, ?_⟩
      · have hgone : (m.bytes s).drop len = [] := List.drop_eq_nil_of_le (hm.length.symm ▸ hle)
        rw [bytes_cons, hempty.2, htail.2.1, List.take_zero, hgone]
      · rw [htail.2.2]
        omega
    · have htrim := hm.trim (Nat.le_of_not_le hle)
      refine ⟨hfit.tail.cons htrim.1, ?_, ?_⟩
      · rw [bytes_cons, htrim.2, Nat.sub_eq_zero_of_le (Nat.le_of_not_le hle), List.drop_zero]
      · omega

theorem last_le_count (chain : Chain) : (chain.getLast?.map Mbuf.mLen).getD 0 ≤ count chain := by
  induction chain with
  | nil => exact Nat.le_refl 0
  | cons m chain ih =>
    cases chain with
    | nil => simp
    | cons n chain =>
      rw [List.getLast?_cons_cons, count_cons]
      omega

theorem empty_spec (hfit : AllFit s chain) :
    AllFit s (chain.map fun m ↦ { m with mLen := 0 }) ∧
      bytes s (chain.map fun m ↦ { m with mLen := 0 }) = [] := by
  induction chain with
  | nil => exact ⟨hfit, rfl⟩
  | cons m chain ih =>
    have hempty := (hfit m List.mem_cons_self).shrink (Nat.zero_le m.mLen)
    have htail := ih hfit.tail
    rw [List.map_cons, bytes_cons, hempty.2, htail.2]
    exact ⟨htail.1.cons hempty.1, rfl⟩

theorem trimLast_spec (hfit : AllFit s chain)
    (hle : len ≤ (chain.getLast?.map Mbuf.mLen).getD 0) :
    AllFit s (trimLast len chain) ∧
      bytes s (trimLast len chain) = (bytes s chain).take (count chain - len) := by
  induction chain with
  | nil => exact ⟨hfit, by simp [trimLast]⟩
  | cons m chain ih =>
    have hm : m.Fits s := hfit m List.mem_cons_self
    cases chain with
    | nil =>
      have hshrink := hm.shrink (Nat.sub_le m.mLen len)
      refine ⟨hfit.tail.cons hshrink.1, ?_⟩
      rw [trimLast, bytes_cons, bytes_nil, hshrink.2]
      simp
    | cons n chain =>
      rw [List.getLast?_cons_cons] at hle
      have htail := ih hfit.tail hle
      have hcount : len ≤ count (n :: chain) := Nat.le_trans hle (last_le_count _)
      have hall : (m.bytes s).take (m.mLen + (count (n :: chain) - len)) = m.bytes s :=
        List.take_of_length_le (hm.length.symm ▸ Nat.le_add_right _ _)
      refine ⟨htail.1.cons hm, ?_⟩
      rw [trimLast, bytes_cons, htail.2, bytes_cons (m := m), List.take_append, hm.length,
        count_cons (m := m), Nat.add_sub_assoc hcount, Nat.add_sub_cancel_left, hall]

theorem truncate_spec (len : ℕ) (hfit : AllFit s chain) (hle : len ≤ count chain) :
    AllFit s (truncate chain len) ∧ bytes s (truncate chain len) = (bytes s chain).take len := by
  induction chain generalizing len with
  | nil => exact ⟨hfit, by simp [truncate]⟩
  | cons m chain ih =>
    have hm : m.Fits s := hfit m List.mem_cons_self
    rw [truncate, bytes_cons, List.take_append, hm.length]
    split_ifs with hlast
    · have hshrink := hm.shrink hlast
      have hempty := empty_spec hfit.tail
      refine ⟨hempty.1.cons hshrink.1, ?_⟩
      rw [bytes_cons, hshrink.2, hempty.2, Nat.sub_eq_zero_of_le hlast, List.take_zero]
    · rw [count_cons] at hle
      have htail := ih (len - m.mLen) hfit.tail (by omega)
      have hall : (m.bytes s).take len = m.bytes s :=
        List.take_of_length_le (hm.length.symm ▸ Nat.le_of_not_le hlast)
      exact ⟨htail.1.cons hm, by rw [bytes_cons, htail.2, hall]⟩

theorem header_trimFront (chain : Chain) (len : ℕ) :
    header (trimFront chain len).1 = header chain := by
  cases chain with
  | nil => rfl
  | cons m chain =>
    rw [trimFront]
    split_ifs <;> rfl

theorem header_trimLast (len : ℕ) (chain : Chain) : header (trimLast len chain) = header chain := by
  cases chain with
  | nil => rfl
  | cons m chain => cases chain <;> rfl

theorem header_truncate (chain : Chain) (len : ℕ) : header (truncate chain len) = header chain := by
  cases chain with
  | nil => rfl
  | cons m chain =>
    rw [truncate]
    split_ifs <;> rfl

/-- A change of the length in the packet header. -/
def relabel (g : ℤ → ℤ) (chain : Chain) : Chain :=
  onHeader (fun m ↦ { m with pkthdr := m.pkthdr.map g }) chain

theorem bytes_relabel (g : ℤ → ℤ) (chain : Chain) : bytes s (relabel g chain) = bytes s chain := by
  cases chain <;> rfl

theorem header_relabel (g : ℤ → ℤ) (chain : Chain) :
    header (relabel g chain) = (header chain).map g := by
  cases chain <;> rfl

theorem AllFit.relabel (hfit : AllFit s chain) (g : ℤ → ℤ) : AllFit s (relabel g chain) := by
  cases chain with
  | nil => exact hfit
  | cons m chain =>
    have hm := hfit m List.mem_cons_self
    have hstart : Mbuf.start { m with pkthdr := m.pkthdr.map g } = m.start := by
      simp only [Mbuf.start, Option.isSome_map]
    apply hfit.tail.cons
    exact ⟨hm.1, fun hext ↦ hstart ▸ hm.2 hext⟩

/-- What is left of a chain is well formed if the new length in the packet header is right. -/
theorem relabel_spec {l : Chain} {data : List UInt8} (g : ℤ → ℤ) (hfit : AllFit s l)
    (hbytes : bytes s l = data) (hheader : header l = header chain)
    (hlength : g (count chain) = data.length) :
    AllFit s (relabel g l) ∧ bytes s (relabel g l) = data ∧
      (Headed chain → Headed (relabel g l)) := by
  have hdata : bytes s (relabel g l) = data := (bytes_relabel g l).trans hbytes
  refine ⟨hfit.relabel g, hdata, fun hheaded h hh ↦ ?_⟩
  rw [header_relabel, hheader, Option.map_eq_some_iff] at hh
  obtain ⟨h', hh', heq⟩ := hh
  rw [← heq, hheaded h' hh', hlength, ← (hfit.relabel g).length, hdata]

/-- What `m_adj` leaves of some bytes. -/
def adjusted (reqLen : ℤ) (data : List UInt8) : List UInt8 :=
  if 0 ≤ reqLen then data.drop reqLen.toNat else data.take (data.length - (-reqLen).toNat)

theorem mAdj_spec (hfit : AllFit s chain) (reqLen : ℤ) :
    AllFit s (mAdj chain reqLen) ∧ bytes s (mAdj chain reqLen) = adjusted reqLen (bytes s chain) ∧
      (Headed chain → Headed (mAdj chain reqLen)) := by
  have hfront : ∀ data : List UInt8, 0 ≤ reqLen → adjusted reqLen data = data.drop reqLen.toNat :=
    fun _ hsign ↦ if_pos hsign
  have hback : reqLen < 0 → adjusted reqLen (bytes s chain) =
      (bytes s chain).take (count chain - (-reqLen).toNat) := fun hsign ↦ by
    rw [adjusted, if_neg (by omega), hfit.length]
  unfold mAdj adjBack
  split_ifs with hnone hpos hlast
  · refine ⟨hfit, ?_, fun hheaded ↦ hheaded⟩
    rcases hnone with hnil | hzero
    · simp [hnil, adjusted]
    · simp [hzero, adjusted]
  · have htrim := trimFront_spec hfit reqLen.toNat
    rw [hfront _ (by omega)]
    apply relabel_spec (· - (reqLen - (trimFront chain reqLen.toNat).2)) htrim.1 htrim.2.1
      (header_trimFront chain _)
    rw [htrim.2.2, List.length_drop, hfit.length]
    omega
  · have htrim := trimLast_spec hfit hlast
    rw [hback (by omega)]
    apply relabel_spec (· - ((-reqLen).toNat : ℤ)) htrim.1 htrim.2 (header_trimLast _ chain)
    rw [List.length_take, hfit.length]
    have hle := last_le_count chain
    omega
  · have htrim := truncate_spec _ hfit (Nat.sub_le (count chain) (-reqLen).toNat)
    rw [hback (by omega)]
    apply relabel_spec (fun _ ↦ ((count chain - (-reqLen).toNat : ℕ) : ℤ)) htrim.1 htrim.2
      (header_truncate chain _)
    rw [List.length_take, hfit.length]
    omega

end Bsd386.Kern.Mbufs
