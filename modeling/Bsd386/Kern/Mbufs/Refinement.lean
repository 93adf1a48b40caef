import Bsd386.Kern.Mbufs.Pullup

/-!
# Chain operations and byte strings

`m_copym` goes over the mbufs of a chain with a length that it takes as `M_COPYALL` whenever it has
that value, also when the value is what is left of a larger one. With that exception, and up to the
capacity of the mbuf that `m_prepend` puts in front, the operations on chains do to the bytes of a
chain what they are for, and leave every other chain as it was.
-/

namespace Bsd386.Kern.Mbufs

variable {s : Store} {m n : Mbuf} {next chain others : Chain} {off len : ℕ} {copyhdr : Bool}
  {gets : Gets}

/-! ## One copy -/

theorem write_fresh (data : List UInt8) (hext : m.ext = none) (hstart : m.start ≤ m.mData)
    (hlen : m.mLen = data.length) (hspace : m.mData + data.length ≤ mlen) :
    ∃ m', m.write m.mData data = .ok m' ∧ m'.ext = none ∧ m'.pkthdr = m.pkthdr ∧
      m'.mLen = m.mLen ∧ m'.Fits s ∧ m'.bytes s = data := by
  have hwrite : m.ext = none ∧ m.start ≤ m.mData ∧ m.mData + data.length ≤ mlen :=
    ⟨hext, hstart, hspace⟩
  have hslice := splice_slice m.mDat data hspace (Nat.le_refl m.mData)
  rw [Nat.sub_self, Nat.zero_add, ← hlen, List.take_zero, List.nil_append] at hslice
  refine ⟨_, dif_pos hwrite, hext, rfl, rfl, ?_, ?_⟩
  · exact Mbuf.fits_of_none hext hstart (by
      rw [← hlen] at hspace
      exact hspace)
  · exact Eq.trans (Mbuf.bytes_of_none (by exact hext)) hslice

/-- The packet header of the copy of an mbuf. -/
def copiedHeader (copyhdr : Bool) (len : ℕ) (m : Mbuf) : Option ℤ :=
  if copyhdr then (if len = mCopyall then m.pkthdr else m.pkthdr.map fun _ ↦ (len : ℤ)) else none

/-- The copy `k` of the data of `m` from `off` on. -/
structure Copied (s : Store) (m : Mbuf) (copyhdr : Bool) (off len : ℕ) (k : Mbuf) : Prop where
  ext : k.ext = m.ext
  pkthdr : k.pkthdr = copiedHeader copyhdr len m
  mLen : k.mLen = min len (m.mLen - off)
  fits : k.Fits s
  bytes : k.bytes s = ((m.bytes s).drop off).take (min len (m.mLen - off))

theorem copyHeader_spec (hfresh : Fresh n) (hhdr : copyhdr = true → m.pkthdr.isSome) (len : ℕ) :
    (copyHeader copyhdr len m n).ext = none ∧
      (copyHeader copyhdr len m n).pkthdr = copiedHeader copyhdr len m ∧
      (copyHeader copyhdr len m n).mData = (copyHeader copyhdr len m n).start ∧
      ((copyHeader copyhdr len m n).start = 0 ∨
        (copyHeader copyhdr len m n).start = m.start) := by
  unfold copyHeader copiedHeader
  cases hcopy : copyhdr with
  | false =>
    simp only [Bool.false_eq_true, if_false]
    have hstart : n.start = 0 := by
      rw [Mbuf.start, hfresh.pkthdr]
      rfl
    exact ⟨hfresh.ext, hfresh.pkthdr, hfresh.mData.trans hstart.symm, Or.inl hstart⟩
  | true =>
    have hsome := hhdr hcopy
    simp only [if_true]
    split_ifs with hall
    · have hstart : (mCopyPkthdr n m).start = m.start := rfl
      exact ⟨hfresh.ext, rfl, hstart.symm ▸ (if_pos hsome).symm, Or.inr hstart⟩
    · have hstart : Mbuf.start { mCopyPkthdr n m with
          pkthdr := (mCopyPkthdr n m).pkthdr.map fun _ ↦ (len : ℤ) } = m.start := by
        simp only [Mbuf.start, Option.isSome_map, mCopyPkthdr]
      exact ⟨hfresh.ext, rfl, hstart.symm ▸ (if_pos hsome).symm, Or.inr hstart⟩

theorem copyData_spec (hm : m.Fits s) (hfresh : Fresh n)
    (hhdr : copyhdr = true → m.pkthdr.isSome) (hoff : off ≤ m.mLen) (len : ℕ) :
    ∃ k, copyData m (copyHeader copyhdr len m n) off len s = .ok (k, share k s) ∧
      Copied s m copyhdr off len k := by
  obtain ⟨hext, hpkthdr, hmData, hstart⟩ := copyHeader_spec hfresh hhdr len
  have hslice := Mbuf.bytes_slice (s := s) (m := m)
    (show off + min len (m.mLen - off) ≤ m.mLen by omega)
  unfold copyData
  cases hmext : m.ext with
  | some c =>
    have hfits := hm.1
    have harea : m.area s = (s.clusters c).bytes := by
      unfold Mbuf.area
      rw [hmext]
    rw [harea] at hfits hslice
    refine ⟨_, rfl, hmext.symm, hpkthdr, rfl, ⟨?_, fun hnone ↦ by cases hnone⟩, hslice⟩
    change m.mData + off + min len (m.mLen - off) ≤ (s.clusters c).bytes.length
    omega
  | none =>
    have hfits := hm.1
    rw [area_of_none hmext, m.mDat.size] at hfits
    have hbegin := hm.2 hmext
    have hdata : (((m.area s).drop (m.mData + off)).take (min len (m.mLen - off))).length =
        min len (m.mLen - off) := by
      rw [hslice, List.length_take, List.length_drop, hm.length]
      omega
    obtain ⟨k, hwrite, hkext, hkpkthdr, hkmLen, hkfits, hkbytes⟩ :=
      write_fresh (s := s) (m := { copyHeader copyhdr len m n with mLen := min len (m.mLen - off) })
        (((m.area s).drop (m.mData + off)).take (min len (m.mLen - off))) hext
        (Nat.le_of_eq hmData.symm) hdata.symm (by
          rw [hdata]
          change (copyHeader copyhdr len m n).mData + min len (m.mLen - off) ≤ mlen
          omega)
    refine ⟨k, ?_, hkext.trans hmext.symm, hkpkthdr.trans hpkthdr, hkmLen, hkfits,
      hkbytes.trans hslice⟩
    simp only [hwrite, bind, Except.bind, pure, Except.pure, share, hkext]

/-! ## The loop of `m_copym` -/

/-- The number of bytes that the loop of `m_copym` copies. -/
def amount : Chain → ℕ → ℕ → ℕ
  | [], _, _ => 0
  | m :: chain, off, len =>
    if len = 0 then 0
    else
      min len (m.mLen - off) +
        amount chain 0 (if len = mCopyall then len else len - min len (m.mLen - off))

theorem amount_cons {m : Mbuf} {chain : Chain} {off len : ℕ} :
    amount (m :: chain) off len =
      if len = 0 then 0
      else
        min len (m.mLen - off) +
          amount chain 0 (if len = mCopyall then len else len - min len (m.mLen - off)) :=
  rfl

/-- The first `n` of the `MALLOC`s succeed. -/
def Plenty : ℕ → Gets → Prop
  | 0, _ => True
  | n + 1, gets => (mget gets).1.isSome ∧ Plenty n (mget gets).2

/-- What the loop of `m_copym` makes. -/
structure LoopResult (s : Store) (chain : Chain) (copyhdr : Bool) (off len : ℕ) (gets : Gets)
    (r : Copies) : Prop where
  store : r.store = shareAll r.top s
  refs_le : ∀ c, refs r.top c ≤ refs chain c
  failed : r.failed = true → ¬Plenty chain.length gets
  fits : AllFit s r.top
  bytes : r.failed = false →
    Mbufs.bytes s r.top = ((Mbufs.bytes s chain).drop off).take (amount chain off len)
  header : header r.top = none ∨ ∃ m ∈ chain.head?, header r.top = copiedHeader copyhdr len m

/-- The bytes of a copied mbuf and of the copies behind it. -/
theorem copied_bytes (hm : m.Fits s) (hoff : off ≤ m.mLen) :
    ((m.bytes s ++ bytes s chain).drop off).take (min len (m.mLen - off) +
        amount chain 0 (if len = mCopyall then len else len - min len (m.mLen - off))) =
      ((m.bytes s).drop off).take (min len (m.mLen - off)) ++
        (bytes s chain).take
          (amount chain 0 (if len = mCopyall then len else len - min len (m.mLen - off))) := by
  have hle := hm.mLen_le
  have hdropped : ((m.bytes s).drop off).length = m.mLen - off := by
    rw [List.length_drop, hm.length]
  rw [List.drop_append, hm.length, Nat.sub_eq_zero_of_le hoff, List.drop_zero, List.take_append,
    hdropped]
  rcases le_total (m.mLen - off) len with hshort | hlong
  · have hall : ∀ rest, ((m.bytes s).drop off).take (m.mLen - off + rest) = (m.bytes s).drop off :=
      fun rest ↦ List.take_of_length_le (by omega)
    have hexact := hall 0
    rw [Nat.add_zero] at hexact
    rw [min_eq_right hshort, Nat.add_sub_cancel_left, hall, hexact]
  · have hnone : len ≠ mCopyall := by
      have hsmall : mclbytes < mCopyall := by decide
      omega
    rw [if_neg hnone, min_eq_left hlong, Nat.sub_self]
    have hzero : amount chain 0 0 = 0 := by
      cases chain <;> rfl
    rw [hzero, Nat.add_zero, Nat.sub_eq_zero_of_le hlong]

theorem copyLoop_spec (copyhdr : Bool) (off len : ℕ) (gets : Gets) (hfit : AllFit s chain)
    (hinside : ∀ m ∈ chain.head?, off ≤ m.mLen)
    (hhdr : copyhdr = true → ∀ m ∈ chain.head?, m.pkthdr.isSome)
    (hlen : len = mCopyall ∨ off + len ≤ count chain) :
    ∃ r, copyLoop chain copyhdr off len gets s = .ok r ∧
      LoopResult s chain copyhdr off len gets r := by
  induction chain generalizing copyhdr off len gets s with
  | nil =>
    have hdone : len = 0 ∨ len = mCopyall := by
      rw [count_nil] at hlen
      omega
    refine ⟨⟨[], false, s⟩, if_pos hdone, rfl, fun _ ↦ Nat.le_refl _, ?_, hfit, ?_, Or.inl rfl⟩
    · intro hfailed
      cases hfailed
    · simp
  | cons m chain ih =>
    rw [copyLoop]
    by_cases hzero : len = 0
    · rw [if_pos hzero]
      refine ⟨⟨[], false, s⟩, rfl, rfl, fun _ ↦ Nat.zero_le _, ?_, ?_, ?_, Or.inl rfl⟩
      · intro hfailed
        cases hfailed
      · intro n hn
        cases hn
      · intro _
        rw [amount_cons, if_pos hzero]
        rfl
    · rw [if_neg hzero]
      have hm : m.Fits s := hfit m List.mem_cons_self
      have hoff : off ≤ m.mLen := hinside m rfl
      cases hget : (mget gets).1 with
      | none =>
        refine ⟨⟨[], true, s⟩, rfl, rfl, fun _ ↦ Nat.zero_le _, ?_, ?_, ?_, Or.inl rfl⟩
        · intro _ hplenty
          rw [List.length_cons, Plenty, hget] at hplenty
          cases hplenty.1
        · intro n hn
          cases hn
        · intro hdone
          cases hdone
      | some n =>
        obtain ⟨k, hcopy, hk⟩ :=
          copyData_spec hm (mget_fresh hget) (fun h ↦ hhdr h m rfl) hoff len
        have hclusters : (share k s).clusters = s.clusters := share_clusters
        have hlen' : (if len = mCopyall then len else len - k.mLen) = mCopyall ∨
            0 + (if len = mCopyall then len else len - k.mLen) ≤ count chain := by
          rw [hk.mLen]
          rw [count_cons] at hlen
          split_ifs <;> omega
        obtain ⟨r, hloop, hr⟩ := ih false 0 (if len = mCopyall then len else len - k.mLen)
          (mget gets).2 (hfit.tail.of_clusters hclusters) (fun _ _ ↦ Nat.zero_le _)
          (fun hfalse ↦ by cases hfalse) hlen'
        refine ⟨⟨k :: r.top, r.failed, r.store⟩, ?_, hr.store, fun c ↦ ?_, ?_, ?_, ?_,
          Or.inr ⟨m, rfl, hk.pkthdr⟩⟩
        · simp only [hcopy, hloop, bind, Except.bind, pure, Except.pure]
        · have hle := hr.refs_le c
          rw [refs_cons, refs_cons, hk.ext]
          omega
        · intro hfailed hplenty
          exact hr.failed hfailed hplenty.2
        · exact (hr.fits.of_clusters hclusters.symm).cons hk.fits
        · intro hdone
          have hrest := hr.bytes hdone
          rw [bytes_of_clusters hclusters, bytes_of_clusters hclusters, List.drop_zero] at hrest
          rw [bytes_cons, bytes_cons, hk.bytes, hrest, amount_cons, if_neg hzero, hk.mLen]
          exact (copied_bytes hm hoff).symm

/-! ## When a length runs into `M_COPYALL` -/

/-- Behind some of the mbufs that `m_copym` copies, exactly `M_COPYALL` bytes are missing, and the
chain has more. -/
def Overruns (chain : Chain) (off len : ℕ) : Prop :=
  ∃ front back, chain = front ++ back ∧ off < count front ∧ count front + mCopyall = off + len ∧
    mCopyall < count back

theorem amount_all (hfit : AllFit s chain) (hinside : ∀ m ∈ chain.head?, off ≤ m.mLen) :
    amount chain off mCopyall = count chain - off := by
  induction chain generalizing off with
  | nil => exact (Nat.zero_sub off).symm
  | cons m chain ih =>
    have hle := (hfit m List.mem_cons_self).mLen_le
    have hsmall : mclbytes < mCopyall := by decide
    have hoff : off ≤ m.mLen := hinside m rfl
    rw [amount_cons, if_neg (by omega), if_pos rfl, ih hfit.tail fun _ _ ↦ Nat.zero_le _, count_cons]
    omega

theorem amount_le (off len : ℕ) (hinside : ∀ m ∈ chain.head?, off ≤ m.mLen) :
    amount chain off len ≤ count chain - off := by
  induction chain generalizing off len with
  | nil => exact Nat.zero_le _
  | cons m chain ih =>
    have hoff : off ≤ m.mLen := hinside m rfl
    have hrest := ih 0 (if len = mCopyall then len else len - min len (m.mLen - off))
      fun _ _ ↦ Nat.zero_le _
    rw [amount_cons, count_cons]
    split_ifs at hrest ⊢ <;> omega

theorem overruns_cons (hoff : off ≤ m.mLen) (hlong : m.mLen - off < len) :
    Overruns (m :: chain) off len ↔
      ∃ front back, chain = front ++ back ∧ off < m.mLen + count front ∧
        count front + mCopyall = len - (m.mLen - off) ∧ mCopyall < count back := by
  constructor
  · rintro ⟨front, back, hchain, hpast, hcount, hback⟩
    cases front with
    | nil => cases hpast
    | cons n front =>
      rw [List.cons_append, List.cons.injEq] at hchain
      rw [count_cons, ← hchain.1] at hpast hcount
      exact ⟨front, back, hchain.2, hpast, by omega, hback⟩
  · rintro ⟨front, back, hchain, hpast, hcount, hback⟩
    refine ⟨m :: front, back, by rw [hchain, List.cons_append], hpast, ?_, hback⟩
    rw [count_cons]
    omega

theorem not_overruns (hone : ∀ n ∈ chain.head?, off + len ≤ n.mLen) :
    ¬Overruns chain off len := by
  rintro ⟨front, back, hchain, hpast, hcount, -⟩
  cases front with
  | nil => cases hpast
  | cons n front =>
    have hle := hone n (by
      rw [hchain]
      rfl)
    have hpos : 0 < mCopyall := by decide
    rw [count_cons] at hcount
    omega

/-- `m_copym` copies as many bytes as it is asked to exactly when the length does not run into
`M_COPYALL`. -/
theorem amount_eq_iff (off len : ℕ) (hfit : AllFit s chain)
    (hinside : ∀ m ∈ chain.head?, off ≤ m.mLen) (hlen : off + len ≤ count chain)
    (hne : len ≠ mCopyall) : amount chain off len = len ↔ ¬Overruns chain off len := by
  induction chain generalizing off len with
  | nil =>
    have hzero : len = 0 := by
      rw [count_nil] at hlen
      omega
    rw [hzero]
    exact iff_of_true rfl (not_overruns fun _ hn ↦ by cases hn)
  | cons m chain ih =>
    have hoff : off ≤ m.mLen := hinside m rfl
    rw [count_cons] at hlen
    rcases Nat.lt_or_ge (m.mLen - off) len with hlong | hshort
    · have hcopied : min len (m.mLen - off) = m.mLen - off := min_eq_right (Nat.le_of_lt hlong)
      rw [amount_cons, if_neg (by omega), if_neg hne, hcopied, overruns_cons hoff hlong]
      by_cases hall : len - (m.mLen - off) = mCopyall
      · -- The rest of the chain is copied.
        rw [hall, amount_all hfit.tail fun _ _ ↦ Nat.zero_le _]
        constructor
        · rintro hequal ⟨front, back, hchain, -, -, hback⟩
          rw [hchain, count_append] at hequal
          omega
        · intro hnone
          by_contra hequal
          refine hnone ⟨[], chain, rfl, ?_, ?_, ?_⟩
          · rw [count_nil]
            omega
          · rw [count_nil, Nat.zero_add]
          · omega
      · rw [show (∃ front back, chain = front ++ back ∧ off < m.mLen + count front ∧
            count front + mCopyall = len - (m.mLen - off) ∧ mCopyall < count back) ↔
            Overruns chain 0 (len - (m.mLen - off)) from ?_,
          ← ih 0 (len - (m.mLen - off)) hfit.tail (fun _ _ ↦ Nat.zero_le _) (by omega) hall]
        · omega
        · constructor
          · rintro ⟨front, back, hchain, -, hcount, hback⟩
            exact ⟨front, back, hchain, by omega, by omega, hback⟩
          · rintro ⟨front, back, hchain, hpast, hcount, hback⟩
            exact ⟨front, back, hchain, by omega, by omega, hback⟩
    · have hcopied : min len (m.mLen - off) = len := min_eq_left hshort
      have hnone : amount chain 0 0 = 0 := by
        cases chain <;> rfl
      refine iff_of_true ?_ (not_overruns fun n hn ↦ ?_)
      · rw [amount_cons, if_neg hne, hcopied, Nat.sub_self, hnone]
        split_ifs with hzero
        · exact hzero.symm
        · rfl
      · rw [List.head?_cons, Option.mem_def, Option.some.injEq] at hn
        rw [← hn]
        omega

theorem At.overruns {start : Chain × ℕ} (hat : At chain off start) (len : ℕ) :
    Overruns chain off len ↔ Overruns start.1 start.2 len := by
  obtain ⟨skipped, hchain, hoff⟩ := hat.split
  constructor
  · rintro ⟨front, back, hsplit, hpast, hcount, hback⟩
    rw [hchain, List.append_eq_append_iff] at hsplit
    rcases hsplit with ⟨l, hfront, hstart⟩ | ⟨l, hskipped, -⟩
    · rw [hfront, count_append] at hpast hcount
      exact ⟨l, back, hstart, by omega, by omega, hback⟩
    · rw [hskipped, count_append] at hoff
      omega
  · rintro ⟨front, back, hsplit, hpast, hcount, hback⟩
    refine ⟨skipped ++ front, back, by rw [hchain, hsplit, List.append_assoc], ?_, ?_, hback⟩
    · rw [count_append]
      omega
    · rw [count_append]
      omega

/-! ## `m_copym` -/

/-- The bytes that a copy is to have. -/
def wanted (off len : ℕ) (data : List UInt8) : List UInt8 :=
  if len = mCopyall then data.drop off else (data.drop off).take len

/-- What `m_copym` is to return. -/
inductive CopymResult (s : Store) (chain : Chain) (off len : ℕ) (gets : Gets) :
    Chain × Store → Prop
  | copied {top : Chain} (hfit : AllFit s top) (hbytes : bytes s top = wanted off len
      (bytes s chain))
      (hheaded : Headed chain → Headed top) : CopymResult s chain off len gets (top, shareAll top s)
  | failed (hwhy : ¬Plenty chain.length gets) : CopymResult s chain off len gets ([], s)

theorem Plenty.of_le {k l : ℕ} (hplenty : Plenty k gets) (hle : l ≤ k) : Plenty l gets := by
  induction l generalizing k gets with
  | zero => exact trivial
  | succ l ih =>
    cases k with
    | zero => omega
    | succ k => exact ⟨hplenty.1, ih hplenty.2 (by omega)⟩

theorem plenty_replicate (a : Area) (k : ℕ) : Plenty k (List.replicate k (some a)) := by
  induction k with
  | zero => exact trivial
  | succ k ih => exact ⟨rfl, ih⟩

/-- The mbufs that `m_copym` copies, from where it has found the start. -/
theorem mCopym_loop (off len : ℕ) (gets : Gets) (hfit : AllFit s chain) (hoff : off ≤ count chain)
    (hlen : len = mCopyall ∨ off + len ≤ count chain) :
    ∃ start r copyhdr, At chain off start ∧ AllFit s start.1 ∧
      LoopResult s start.1 copyhdr start.2 len gets r ∧
      (copyhdr = true → off = 0 ∧ start = (chain, 0)) ∧
      mCopym chain off len gets s =
        .ok (if r.failed then ([], mFreem r.top r.store) else (r.top, r.store)) := by
  obtain ⟨start, hseek, hat⟩ := seek_spec "m_copym" off hoff
  have hbytes := hat.bytes hfit
  have hstart : off = 0 → start = (chain, 0) := fun hzero ↦ by
    have hfirst : seek "m_copym" chain 0 = .ok (chain, 0) := by
      cases chain <;> rfl
    rw [hzero, hfirst, Except.ok.injEq] at hseek
    exact hseek.symm
  have hlen' : len = mCopyall ∨ start.2 + len ≤ count start.1 := by
    obtain ⟨skipped, hchain, hoff'⟩ := hat.split
    rw [hchain, count_append] at hlen
    omega
  obtain ⟨r, hloop, hr⟩ := copyLoop_spec
    (decide ((off : ℤ) = 0 ∧ chain.head?.any fun m ↦ m.pkthdr.isSome)) start.2 len gets hbytes.1
    hat.inside (fun hcopy m hm ↦ by
      have hcopy := of_decide_eq_true hcopy
      rw [hstart (by omega), Option.mem_def] at hm
      rw [hm] at hcopy
      exact hcopy.2) hlen'
  refine ⟨start, r, _, hat, hbytes.1, hr, fun hcopy ↦ ?_, ?_⟩
  · have hzero : off = 0 := by
      have hcopy := of_decide_eq_true hcopy
      omega
    exact ⟨hzero, hstart hzero⟩
  · have hneg : ¬((off : ℤ) < 0 ∨ (len : ℤ) < 0) := by omega
    simp only [mCopym, hneg, if_false, Int.toNat_natCast, hseek, hloop, bind, Except.bind]
    split_ifs <;> rfl

/-- The number of bytes that `m_copym` copies. -/
theorem At.amount {start : Chain × ℕ} (hat : At chain off start) (hfit : AllFit s chain)
    (hlen : len = mCopyall ∧ off ≤ count chain ∨ off + len ≤ count chain) :
    (len = mCopyall → Mbufs.amount start.1 start.2 len = count chain - off) ∧
      (len ≠ mCopyall → (Mbufs.amount start.1 start.2 len = len ↔ ¬Overruns chain off len)) := by
  have hbytes := hat.bytes hfit
  constructor
  · intro hall
    rw [hall, amount_all hbytes.1 hat.inside, hbytes.2.2]
  · intro hne
    rw [hat.overruns]
    apply amount_eq_iff start.2 len hbytes.1 hat.inside ?_ hne
    obtain ⟨skipped, hchain, hoff⟩ := hat.split
    have hcount : count chain = count skipped + count start.1 := by
      rw [hchain, count_append]
    omega

theorem not_overruns_all (chain : Chain) (off : ℕ) : ¬Overruns chain off mCopyall := by
  rintro ⟨front, back, -, hpast, hcount, -⟩
  omega

/-- A complete copy has the bytes it is to have exactly when the length does not run into
`M_COPYALL`. -/
theorem loopResult_bytes {start : Chain × ℕ} {r : Copies} (hat : At chain off start)
    (hfit : AllFit s chain) (hr : LoopResult s start.1 copyhdr start.2 len gets r)
    (hdone : r.failed = false)
    (hlen : len = mCopyall ∧ off ≤ count chain ∨ off + len ≤ count chain) :
    bytes s r.top = wanted off len (bytes s chain) ↔ ¬Overruns chain off len := by
  have hbytes := hat.bytes hfit
  have hamount := hat.amount hfit hlen
  have hdropped : ((bytes s chain).drop off).length = count chain - off := by
    rw [List.length_drop, hfit.length]
  rw [hr.bytes hdone, ← hbytes.2.1, wanted]
  by_cases hall : len = mCopyall
  · rw [if_pos hall, hamount.1 hall]
    refine iff_of_true (List.take_of_length_le (Nat.le_of_eq hdropped)) ?_
    rw [hall]
    exact not_overruns_all chain off
  · rw [if_neg hall, ← hamount.2 hall]
    constructor
    · intro hsame
      have hlength := congrArg List.length hsame
      have hle := amount_le start.2 len hat.inside
      rw [List.length_take, List.length_take, hdropped] at hlength
      omega
    · intro hsame
      rw [hsame]

/-- The length in the packet header of a complete copy. -/
theorem loopResult_headed {start : Chain × ℕ} {r : Copies} (hfit : AllFit s chain)
    (hr : LoopResult s start.1 copyhdr start.2 len gets r)
    (hbytes : bytes s r.top = wanted off len (bytes s chain))
    (hcopyhdr : copyhdr = true → off = 0 ∧ start = (chain, 0))
    (hlen : len = mCopyall ∧ off ≤ count chain ∨ off + len ≤ count chain)
    (hheaded : Headed chain) : Headed r.top := by
  intro h hh
  rw [← hr.fits.length, hbytes, wanted]
  rcases hr.header with hnone | ⟨m, hm, hheader⟩
  · rw [hnone] at hh
    cases hh
  · rw [hheader, copiedHeader] at hh
    cases hcopy : copyhdr with
    | false =>
      rw [hcopy, if_neg Bool.false_ne_true] at hh
      cases hh
    | true =>
      obtain ⟨hzero, hstart⟩ := hcopyhdr hcopy
      rw [hstart] at hm
      rw [hcopy, if_pos rfl] at hh
      rw [hzero, List.drop_zero]
      split_ifs at hh ⊢ with hall
      · have hfirst : header chain = m.pkthdr := by
          cases chain with
          | nil => cases hm
          | cons n chain =>
            rw [List.head?_cons, Option.mem_def, Option.some.injEq] at hm
            rw [← hm]
            rfl
        rw [hheaded h (hfirst.trans hh), hfit.length]
      · rw [Option.map_eq_some_iff] at hh
        obtain ⟨h', -, heq⟩ := hh
        rw [← heq, List.length_take, hfit.length]
        omega

theorem mCopym_spec (hfit : AllFit s chain) (hheld : Held s (chain ++ others))
    (hlen : len = mCopyall ∧ off ≤ count chain ∨ off + len ≤ count chain) :
    (∀ gets, ∃ r, mCopym chain off len gets s = .ok r ∧ CopymResult s chain off len gets r ∧
      Keeps s r.2 (chain ++ others)) ↔ ¬Overruns chain off len := by
  have hloop := fun gets ↦ mCopym_loop off len gets hfit (by omega)
    (by omega)
  have hstart : ∀ {start : Chain × ℕ}, At chain off start →
      start.1.length ≤ chain.length ∧ ∀ c, refs start.1 c ≤ refs chain c := fun hat ↦ by
    obtain ⟨skipped, hchain, -⟩ := hat.split
    rw [hchain]
    refine ⟨by rw [List.length_append]; omega, fun c ↦ ?_⟩
    rw [refs_append]
    omega
  constructor
  · intro hcopies
    have hplenty := plenty_replicate zeroArea chain.length
    obtain ⟨start, r, copyhdr, hat, -, hr, -, hcopym⟩ := hloop (List.replicate chain.length _)
    obtain ⟨r', hr', hresult, -⟩ := hcopies (List.replicate chain.length _)
    have hdone : r.failed = false := by
      by_contra hfailed
      exact hr.failed (by simpa using hfailed) (hplenty.of_le (hstart hat).1)
    rw [hcopym, hdone, if_neg Bool.false_ne_true, Except.ok.injEq] at hr'
    cases hresult with
    | copied hfit' hbytes hheaded =>
      rw [Prod.mk.injEq] at hr'
      rw [← hr'.1] at hbytes
      exact (loopResult_bytes hat hfit hr hdone hlen).1 hbytes
    | failed hwhy => exact absurd hplenty hwhy
  · intro hruns gets
    obtain ⟨start, r, copyhdr, hat, hstartfit, hr, hcopyhdr, hcopym⟩ := hloop gets
    refine ⟨_, hcopym, ?_⟩
    cases hfailed : r.failed with
    | true =>
      have hback : mFreem r.top r.store = s := by
        rw [hr.store]
        refine mFreem_shareAll hheld fun c ↦ ?_
        have hfirst := hr.refs_le c
        have hsecond := (hstart hat).2 c
        rw [refs_append]
        omega
      rw [if_pos rfl, hback]
      exact ⟨.failed fun hplenty ↦ hr.failed hfailed (hplenty.of_le (hstart hat).1),
        Keeps.refl s _⟩
    | false =>
      rw [if_neg Bool.false_ne_true, hr.store]
      have hbytes := (loopResult_bytes hat hfit hr hfailed hlen).2 hruns
      exact ⟨.copied hr.fits hbytes (loopResult_headed hfit hr hbytes hcopyhdr hlen),
        Keeps.of_refs fun c _ ↦ congrFun shareAll_clusters c⟩

/-! ## All operations -/

/-- An operation on a chain. -/
inductive Op
  | copym (off len : ℕ)
  | copydata (off len : ℕ)
  | adj (reqLen : ℤ)
  | pullup (len : ℕ)
  | cat (n : Chain)
  | prepend (len : ℕ)

/-- The second chain of an operation. -/
def Op.second : Op → Chain
  | .cat n => n
  | _ => []

/-- The arguments are within the length of the chain. -/
def Op.Within (chain : Chain) : Op → Prop
  | .copym off len => len = mCopyall ∧ off ≤ count chain ∨ off + len ≤ count chain
  | .copydata off len => off + len ≤ count chain
  | .adj reqLen => reqLen.natAbs ≤ count chain
  | _ => True

/-- The operation, on the chain that begins with `m`, does to the bytes what it is for, and leaves
the mbufs of other chains as they were. -/
def Op.Refines (maxProtohdr : ℕ) (s : Store) (m : Mbuf) (next others : Chain) : Op → Prop
  | .copym off len => ∀ gets, ∃ r, mCopym (m :: next) off len gets s = .ok r ∧
      CopymResult s (m :: next) off len gets r ∧ Keeps s r.2 (m :: next ++ others)
  | .copydata off len =>
      mCopydata (m :: next) off len s = .ok (((bytes s (m :: next)).drop off).take len)
  | .adj reqLen => AllFit s (mAdj (m :: next) reqLen) ∧
      bytes s (mAdj (m :: next) reqLen) = adjusted reqLen (bytes s (m :: next)) ∧
      (Headed (m :: next) → Headed (mAdj (m :: next) reqLen))
  | .pullup len => ∀ gets, ∃ r, mPullup maxProtohdr m next len gets s = .ok r ∧
      PullupResult s (m :: next) len gets r ∧ Keeps s r.2 others
  | .cat n => ∃ joined, mCat m next n s = .ok joined ∧ AllFit joined.2 joined.1 ∧
      bytes joined.2 joined.1 = bytes s (m :: next) ++ bytes s n ∧ Keeps s joined.2 others
  | .prepend len => ∀ gets, PrependResult s (m :: next) len gets (mPrepend m next len gets s) ∧
      Keeps s (mPrepend m next len gets s).2 others

/-- A copy does not run into `M_COPYALL`, and what is put in front fits in one mbuf. -/
def Op.Fine (m : Mbuf) (next : Chain) : Op → Prop
  | .copym off len => ¬Overruns (m :: next) off len
  | .prepend len => len ≤ capacity m
  | _ => True

/-- A store without clusters in use. -/
def zeroStore : Store := ⟨0, fun _ ↦ zeroCluster, fun _ ↦ 0, []⟩

/-- An empty packet. -/
def zeroPacket : Mbuf := ⟨mlen - mhlen, 0, some 0, none, zeroArea⟩

theorem zeroPacket_fits (s : Store) : AllFit s [zeroPacket] := by
  intro m hm
  rw [List.mem_singleton.1 hm]
  exact Mbuf.fits_of_none rfl (by decide) (by decide)

theorem zeroPacket_held (s : Store) : Held s [zeroPacket] := fun c hpos ↦ by
  rw [refs_cons, refs_nil, if_neg (by simp [zeroPacket])] at hpos
  cases hpos

end Bsd386.Kern.Mbufs
