import Bsd386.Kern.Mbufs.Bytes

/-!
# Moving data between mbufs

The routines that write data into the area of an mbuf or put a new mbuf in front. `m_cat` and
`m_pullup` write behind the data of an mbuf without a cluster and free the mbufs they have emptied,
which leaves all others as they were. `m_prepend` writes nothing, but the `m_len` it sets fits in
the new mbuf only up to its capacity.
-/

namespace Bsd386.Kern.Mbufs

variable {s : Store} {m n : Mbuf} {next chain others : Chain} {len : ℕ}

/-! ## Writing behind the data -/

theorem splice_slice {size : ℕ} (a : Block size) {d p : ℕ} (data : List UInt8)
    (hfits : p + data.length ≤ size) (hle : d ≤ p) :
    ((a.splice p data hfits).bytes.drop d).take (p - d + data.length) =
      (a.bytes.drop d).take (p - d) ++ data := by
  have hsize := a.size
  have htake : (a.bytes.take p).length = p := by
    rw [List.length_take]
    omega
  have hfront : ((a.bytes.take p).drop d).length = p - d := by
    rw [List.length_drop, htake]
  change (((a.bytes.take p ++ data ++ a.bytes.drop (p + data.length)).drop d).take
    (p - d + data.length)) = _
  rw [List.append_assoc, List.drop_append, htake, Nat.sub_eq_zero_of_le hle, List.drop_zero,
    List.take_append, hfront, Nat.add_sub_cancel_left, List.take_left,
    List.take_of_length_le (by omega), List.drop_take]

/-- What a write behind the data of an mbuf makes of it. -/
structure Wrote (s : Store) (m : Mbuf) (data : List UInt8) (m' : Mbuf) : Prop where
  ext : m'.ext = none
  pkthdr : m'.pkthdr = m.pkthdr
  mLen : m'.mLen = m.mLen + data.length
  mData : m'.mData = m.mData
  fits : ∀ s', m'.Fits s'
  bytes : ∀ s', m'.bytes s' = m.bytes s ++ data

theorem write_spec (data : List UInt8) (hfit : m.Fits s) (hext : m.ext = none)
    (hspace : m.mData + m.mLen + data.length ≤ mlen) :
    ∃ m', m.write (m.mData + m.mLen) data = .ok m' ∧
      Wrote s m data { m' with mLen := m'.mLen + data.length } := by
  have hstart := hfit.2 hext
  have hwrite : m.ext = none ∧ m.start ≤ m.mData + m.mLen ∧
      m.mData + m.mLen + data.length ≤ mlen := ⟨hext, by omega, hspace⟩
  have hslice := splice_slice m.mDat data hspace (Nat.le_add_right m.mData m.mLen)
  rw [Nat.add_sub_cancel_left] at hslice
  refine ⟨_, dif_pos hwrite, hext, rfl, rfl, rfl, fun s' ↦ ?_, fun s' ↦ ?_⟩
  · exact Mbuf.fits_of_none hext hstart (by
      rw [← Nat.add_assoc]
      exact hspace)
  · rw [Mbuf.bytes_of_none hext]
    exact Eq.trans (Mbuf.bytes_of_none (by exact hext)) hslice

/-! ## `m_cat` -/

theorem splat_spec (hm : m.Fits s) (hfit : AllFit s chain) (hheld : Held s (chain ++ others)) :
    ∃ joined, splat m chain s = .ok joined ∧ AllFit joined.2 joined.1 ∧
      bytes joined.2 joined.1 = m.bytes s ++ bytes s chain ∧ Keeps s joined.2 others := by
  induction chain generalizing m s with
  | nil => exact ⟨([m], s), rfl, hfit.cons hm, rfl, Keeps.refl s others⟩
  | cons n chain ih =>
    rw [splat]
    split_ifs with hjoin
    · exact ⟨(m :: n :: chain, s), rfl, hfit.cons hm, rfl, Keeps.refl s others⟩
    · have hnone : m.ext = none := by simpa using fun h ↦ hjoin (Or.inl h)
      have hn : n.Fits s := hfit n List.mem_cons_self
      obtain ⟨m', hwrite, hwrote⟩ := write_spec (n.bytes s) hm hnone (by
        rw [hn.length]
        omega)
      rw [hn.length] at hwrote
      have hfree := Held.mfree hheld
      have hkeeps : Keeps s (mfree n s) chain := fun k hk ↦
        hfree.2 k (List.mem_append_left others hk)
      have htail := ih (m := { m' with mLen := m'.mLen + n.mLen }) (s := mfree n s) (hwrote.fits _)
        (hfit.tail.keeps hkeeps) hfree.1
      obtain ⟨joined, hsplat, hjoined, hbytes, hothers⟩ := htail
      refine ⟨joined, ?_, hjoined, ?_, ?_⟩
      · simp only [hwrite, bind, Except.bind]
        exact hsplat
      · rw [hbytes, hwrote.bytes, hkeeps.bytes, bytes_cons, List.append_assoc]
      · exact Keeps.trans (fun k hk ↦ hfree.2 k (List.mem_append_right chain hk)) hothers

theorem mCat_spec (hm : AllFit s (m :: next)) (hfit : AllFit s chain)
    (hheld : Held s (chain ++ (m :: next ++ others))) :
    ∃ joined, mCat m next chain s = .ok joined ∧ AllFit joined.2 joined.1 ∧
      bytes joined.2 joined.1 = bytes s (m :: next) ++ bytes s chain ∧
      Keeps s joined.2 others := by
  induction next generalizing m others with
  | nil =>
    have hothers : Held s (chain ++ others) := hheld.of_le fun c ↦ by
      simp only [refs_append, refs_cons]
      omega
    obtain ⟨joined, hsplat, hjoined, hbytes, hkeeps⟩ :=
      splat_spec (hm m List.mem_cons_self) hfit hothers
    exact ⟨joined, hsplat, hjoined, by rw [hbytes, bytes_cons, bytes_nil, List.append_nil], hkeeps⟩
  | cons m' next ih =>
    -- The first mbuf is one of those that the rest of the loop leaves alone.
    have hrest : Held s (chain ++ (m' :: next ++ m :: others)) := hheld.of_le fun c ↦ by
      simp only [refs_append, refs_cons]
      omega
    obtain ⟨joined, hcat, hjoined, hbytes, hkeeps⟩ := ih hm.tail hrest
    have hfirst : Keeps s joined.2 [m] := fun k hk ↦
      hkeeps k (List.mem_cons.2 (Or.inl (List.mem_singleton.1 hk)))
    have hsingle : AllFit s [m] := fun k hk ↦ hm k (List.mem_singleton.1 hk ▸ List.mem_cons_self)
    have hfit' : m.Fits joined.2 := hsingle.keeps hfirst m List.mem_cons_self
    refine ⟨(m :: joined.1, joined.2), ?_, hjoined.cons hfit', ?_, ?_⟩
    · simp only [mCat, hcat, bind, Except.bind, pure, Except.pure]
    · rw [bytes_cons, hbytes, hfirst.mbuf_bytes List.mem_cons_self, bytes_cons (m := m),
        List.append_assoc]
    · exact fun k hk ↦ hkeeps k (List.mem_cons_of_mem m hk)

/-! ## `m_pullup` -/

/-- What the loop of `m_pullup` has made of the mbufs from `m` on. -/
structure PulledUp (s : Store) (m : Mbuf) (chain others : Chain) (len : ℕ) (p : Pulled) : Prop where
  ext : p.m.ext = none
  pkthdr : p.m.pkthdr = m.pkthdr
  fits : AllFit p.store (p.m :: p.n)
  bytes : bytes p.store (p.m :: p.n) = m.bytes s ++ bytes s chain
  keeps : Keeps s p.store others
  done : p.len = 0 → m.mLen + len ≤ p.m.mLen
  failed : 0 < p.len → p.n = [] ∧ p.store = mFreem chain s ∧ count chain < len

theorem pullLoop_spec (maxProtohdr len space : ℕ) (hm : m.Fits s) (hext : m.ext = none)
    (hspace : m.mData + m.mLen + space ≤ mlen) (hlen : len ≤ space) (hfit : AllFit s chain)
    (hheld : Held s (chain ++ others)) :
    ∃ p, pullLoop maxProtohdr m len space chain s = .ok p ∧ PulledUp s m chain others len p := by
  induction chain generalizing m s len space with
  | nil =>
    refine ⟨⟨m, [], len, s⟩, rfl, hext, rfl, hfit.cons hm, rfl, Keeps.refl s others, ?_, ?_⟩
    · intro hzero
      change len = 0 at hzero
      change m.mLen + len ≤ m.mLen
      omega
    · exact fun hpos ↦ ⟨rfl, rfl, hpos⟩
  | cons n chain ih =>
    have hn : n.Fits s := hfit n List.mem_cons_self
    have hfree := Held.mfree hheld
    have hothers : Keeps s (mfree n s) others := fun k hk ↦
      hfree.2 k (List.mem_append_right chain hk)
    have hchain : Keeps s (mfree n s) chain := fun k hk ↦
      hfree.2 k (List.mem_append_left others hk)
    obtain ⟨amount, hamount⟩ : ∃ amount, amount = min (min (max len maxProtohdr) space) n.mLen :=
      ⟨_, rfl⟩
    have hdata : ((n.bytes s).take amount).length = amount := by
      rw [List.length_take, hn.length]
      omega
    obtain ⟨m', hwrite, hwrote⟩ := write_spec ((n.bytes s).take amount) hm hext (by
      rw [hdata]
      omega)
    rw [hdata] at hwrote
    have hall : ¬n.mLen - amount ≠ 0 → (n.bytes s).take amount = n.bytes s := fun hleft ↦
      List.take_of_length_le (by
        rw [hn.length]
        omega)
    rw [pullLoop]
    simp only [← hamount, hwrite, bind, Except.bind, pure, Except.pure]
    split_ifs with hleft hdone hdone
    · have htrim := hn.trim (show amount ≤ n.mLen by omega)
      refine ⟨_, rfl, hwrote.ext, hwrote.pkthdr, (hfit.tail.cons htrim.1).cons (hwrote.fits s), ?_,
        Keeps.refl s others, fun _ ↦ ?_, fun hpos ↦ absurd hpos (Nat.lt_irrefl 0)⟩
      · rw [bytes_cons, bytes_cons, hwrote.bytes, htrim.2, bytes_cons, List.append_assoc,
          ← List.append_assoc (List.take _ _), List.take_append_drop]
      · rw [hwrote.mLen, hdata]
        omega
    · omega
    · refine ⟨_, rfl, hwrote.ext, hwrote.pkthdr, ?_, ?_, hothers, fun _ ↦ ?_,
        fun hpos ↦ absurd hpos (Nat.lt_irrefl 0)⟩
      · exact (hfit.tail.keeps hchain).cons (hwrote.fits _)
      · rw [bytes_cons, hwrote.bytes, hchain.bytes, bytes_cons, List.append_assoc, hall hleft]
      · rw [hwrote.mLen, hdata]
        omega
    · obtain ⟨p, hloop, hp⟩ := ih (m := { m' with mLen := m'.mLen + amount }) (s := mfree n s)
        (len - amount) (space - amount) (hwrote.fits _) hwrote.ext (by
          rw [hwrote.mData, hwrote.mLen, hdata]
          omega) (by omega) (hfit.tail.keeps hchain) hfree.1
      refine ⟨p, hloop, hp.ext, hp.pkthdr.trans hwrote.pkthdr, hp.fits, ?_,
        Keeps.trans hothers hp.keeps, fun hzero ↦ ?_, fun hpos ↦ ?_⟩
      · rw [hp.bytes, hwrote.bytes, hchain.bytes, bytes_cons, List.append_assoc, hall hleft]
      · have hle := hp.done hzero
        rw [hwrote.mLen, hdata] at hle
        omega
      · have hfailed := hp.failed hpos
        refine ⟨hfailed.1, hfailed.2.1, ?_⟩
        rw [count_cons]
        omega

/-- The new mbuf that gets the packet header of `n`. -/
structure Moved (n m : Mbuf) : Prop where
  ext : m.ext = none
  pkthdr : m.pkthdr = n.pkthdr
  mData : m.mData = n.start
  mLen : m.mLen = 0

/-- `MGET` returns an mbuf that has neither a header nor a cluster. -/
structure Fresh (m : Mbuf) : Prop where
  ext : m.ext = none
  pkthdr : m.pkthdr = none
  mData : m.mData = 0
  mLen : m.mLen = 0

theorem mget_fresh {gets : Gets} (hget : (mget gets).1 = some m) : Fresh m := by
  rcases gets with - | ⟨- | a, gets⟩
  · cases hget
  · cases hget
  · cases hget
    exact ⟨rfl, rfl, rfl, rfl⟩

theorem Fresh.empty (hfresh : Fresh m) : Fresh { m with mLen := 0 } :=
  ⟨hfresh.ext, hfresh.pkthdr, hfresh.mData, rfl⟩

theorem Fresh.moveHeader (hfresh : Fresh m) (n : Mbuf) : Moved n (moveHeader m n) := by
  unfold Mbufs.moveHeader
  split_ifs with hheader
  · exact ⟨hfresh.ext, rfl, (if_pos hheader).symm, hfresh.mLen⟩
  · have hnone := Option.not_isSome_iff_eq_none.1 hheader
    exact ⟨hfresh.ext, hfresh.pkthdr.trans hnone.symm, hfresh.mData.trans (if_neg hheader).symm,
      hfresh.mLen⟩

theorem Moved.start (hmoved : Moved n m) : m.start = n.start := by
  rw [Mbuf.start, hmoved.pkthdr, Mbuf.start]

theorem Mbuf.start_le (n : Mbuf) : n.start ≤ mlen - mhlen := by
  unfold Mbuf.start
  split_ifs <;> omega

theorem Moved.mData_le (hmoved : Moved n m) : m.mData ≤ mlen - mhlen :=
  Nat.le_trans (Nat.le_of_eq hmoved.mData) n.start_le

theorem Moved.fits (hmoved : Moved n m) (s : Store) : m.Fits s := by
  have hle := n.start_le
  apply Mbuf.fits_of_none hmoved.ext
  · rw [hmoved.start, hmoved.mData]
  · rw [hmoved.mData, hmoved.mLen]
    omega

theorem Moved.bytes (hmoved : Moved n m) (s : Store) : m.bytes s = [] := by
  rw [Mbuf.bytes, hmoved.mLen, List.take_zero]

/-- An mbuf that is no longer the first one of its packet. -/
theorem Mbuf.Fits.detach (hfit : n.Fits s) :
    Mbuf.Fits s { n with pkthdr := none } ∧
      Mbuf.bytes s { n with pkthdr := none } = n.bytes s :=
  ⟨⟨hfit.1, fun _ ↦ Nat.zero_le _⟩, rfl⟩

/-- What `m_pullup` returns. -/
inductive PullupResult (s : Store) (chain : Chain) (len : ℕ) (gets : Gets) :
    Option Chain × Store → Prop
  | pulled {m : Mbuf} {rest : Chain} {s' : Store} (hlen : len ≤ m.mLen)
      (hfit : AllFit s' (m :: rest)) (hbytes : bytes s' (m :: rest) = bytes s chain)
      (hheaded : Headed chain → Headed (m :: rest)) :
      PullupResult s chain len gets (some (m :: rest), s')
  | freed (hwhy : count chain < len ∨ mhlen < len ∨ (mget gets).1 = none) :
      PullupResult s chain len gets (none, mFreem chain s)

theorem Headed.of_bytes {s' : Store} {chain' : Chain} (hfit : AllFit s chain)
    (hfit' : AllFit s' chain') (hbytes : bytes s' chain' = bytes s chain)
    (hheader : header chain' = header chain) (hheaded : Headed chain) : Headed chain' := by
  intro h hh
  rw [hheaded h (hheader ▸ hh), ← hfit.length, ← hbytes, hfit'.length]

/-- The end of `m_pullup` after a loop that started with the mbuf `m` without data, or with the
first mbuf of the chain. -/
theorem pullEnd_spec {p : Pulled} (gets : Gets) (hp : PulledUp s m chain others len p)
    {whole : Chain} (wanted : ℕ) (hwhole : AllFit s whole)
    (hbytes : bytes s whole = m.bytes s ++ bytes s chain) (hheader : header whole = m.pkthdr)
    (hfreed : mFreem chain s = mFreem whole s) (hwanted : wanted ≤ m.mLen + len)
    (hfail : count chain < len → count whole < wanted) :
    PullupResult s whole wanted gets (pullEnd p) ∧ Keeps s (pullEnd p).2 others := by
  unfold pullEnd
  split_ifs with hpos
  · have hfailed := hp.failed hpos
    have hfree : mfree p.m p.store = p.store := by
      unfold mfree
      rw [hp.ext]
    rw [hfree, hfailed.1]
    refine ⟨?_, hp.keeps⟩
    rw [mFreem, hfailed.2.1, hfreed]
    exact .freed (Or.inl (hfail hfailed.2.2))
  · have hdone := hp.done (Nat.eq_zero_of_not_pos hpos)
    have hsame := hp.bytes.trans hbytes.symm
    refine ⟨.pulled (Nat.le_trans hwanted hdone) hp.fits hsame ?_, hp.keeps⟩
    exact fun hheaded ↦ Headed.of_bytes hwhole hp.fits hsame (hp.pkthdr.trans hheader.symm) hheaded

theorem mPullup_spec (maxProtohdr : ℕ) (gets : Gets) (hfit : AllFit s (n :: next))
    (hheld : Held s (n :: next ++ others)) :
    ∃ r, mPullup maxProtohdr n next len gets s = .ok r ∧ PullupResult s (n :: next) len gets r ∧
      Keeps s r.2 others := by
  have hn : n.Fits s := hfit n List.mem_cons_self
  have hfreem := Held.mFreem hheld
  unfold mPullup
  split_ifs with hroom hshort hlong
  · refine ⟨_, rfl, .pulled hshort hfit rfl fun hheaded ↦ hheaded, Keeps.refl s others⟩
  · have hrest : Held s (next ++ others) := hheld.of_le fun c ↦ by
      simp only [refs_append, refs_cons]
      omega
    obtain ⟨p, hloop, hp⟩ := pullLoop_spec maxProtohdr (len - n.mLen)
      (mlen - (n.mData + n.mLen)) hn hroom.1 (by omega) (by omega) hfit.tail hrest
    have hfreed : mFreem next s = mFreem (n :: next) s := by
      rw [mFreem, mfree, hroom.1]
    have hend := pullEnd_spec gets hp len hfit rfl rfl hfreed (by omega) (fun hlt ↦ by
        rw [count_cons]
        omega)
    refine ⟨pullEnd p, ?_, hend⟩
    simp only [hloop, bind, Except.bind, pure, Except.pure]
  · exact ⟨_, rfl, .freed (Or.inr (Or.inl hlong)), hfreem.2⟩
  · cases hget : (mget gets).1 with
    | none => exact ⟨_, rfl, .freed (Or.inr (Or.inr hget)), hfreem.2⟩
    | some m0 =>
      have hnew := (mget_fresh hget).empty.moveHeader n
      have hle : _ ≤ mlen - mhlen := hnew.mData_le
      have hspace : mlen - mhlen + mhlen = mlen := rfl
      have hdetached := hn.detach
      have hheld' : Held s ({ n with pkthdr := none } :: next ++ others) := hheld
      obtain ⟨p, hloop, hp⟩ := pullLoop_spec maxProtohdr len
        (mlen - (moveHeader { m0 with mLen := 0 } n).mData) (hnew.fits s) hnew.ext (by
          rw [hnew.mLen]
          omega) (by omega) (hfit.tail.cons hdetached.1) hheld'
      refine ⟨pullEnd p, ?_, pullEnd_spec gets hp len hfit ?_ hnew.pkthdr.symm rfl ?_ id⟩
      · simp only [hloop, bind, Except.bind, pure, Except.pure]
      · rw [hnew.bytes, bytes_cons, bytes_cons, hdetached.2, List.nil_append]
      · rw [hnew.mLen]
        omega

/-! ## `m_prepend` -/

/-- The bytes that a new mbuf in front of a chain has space for. -/
def capacity (m : Mbuf) : ℕ := mlen - m.start

/-- What `m_prepend` is to return. -/
inductive PrependResult (s : Store) (chain : Chain) (len : ℕ) (gets : Gets) :
    Option Chain × Store → Prop
  | prepended {chain' : Chain} {front : List UInt8} (hfit : AllFit s chain')
      (hlen : front.length = len) (hbytes : bytes s chain' = front ++ bytes s chain) :
      PrependResult s chain len gets (some chain', s)
  | freed (hwhy : (mget gets).1 = none) : PrependResult s chain len gets (none, mFreem chain s)

/-- The new mbuf of `m_prepend`. -/
def prepended (mn m : Mbuf) (len : ℕ) : Mbuf :=
  let mn := moveHeader mn m
  let mn := if len < mhlen then { mn with mData := mn.mData + (mhlen - len) / 4 * 4 } else mn
  { mn with mLen := len }

theorem mPrepend_eq {gets : Gets} {mn : Mbuf} (hget : (mget gets).1 = some mn) :
    mPrepend m next len gets s =
      (some (prepended mn m len :: { m with pkthdr := none } :: next), s) := by
  rw [mPrepend, hget]
  rfl

theorem prepended_fits (hfresh : Fresh n) (m : Mbuf) (len : ℕ) :
    (prepended n m len).Fits s ↔ len ≤ capacity m := by
  have hmoved := hfresh.moveHeader m
  have hstart := m.start_le
  have hspace : mlen - mhlen + mhlen = mlen := rfl
  have hext : (prepended n m len).ext = none := by
    unfold prepended
    split_ifs <;> exact hmoved.ext
  have hmData : (prepended n m len).mData =
      m.start + if len < mhlen then (mhlen - len) / 4 * 4 else 0 := by
    rw [← hmoved.mData]
    unfold prepended
    split_ifs <;> rfl
  have hbegin : (prepended n m len).start = m.start := by
    rw [← hmoved.start]
    unfold prepended
    split_ifs <;> rfl
  have hmLen : (prepended n m len).mLen = len := rfl
  rw [Mbuf.Fits, area_of_none hext, Block.size, hmData, hmLen, hbegin, capacity]
  constructor
  · intro hfit
    omega
  · intro hle
    split_ifs <;> omega

theorem mPrepend_spec (gets : Gets) (hfit : AllFit s (m :: next))
    (hheld : Held s (m :: next ++ others)) (hlen : len ≤ capacity m) :
    PrependResult s (m :: next) len gets (mPrepend m next len gets s) ∧
      Keeps s (mPrepend m next len gets s).2 others := by
  cases hget : (mget gets).1 with
  | none =>
    have hfailed : mPrepend m next len gets s = (none, mFreem (m :: next) s) := by
      rw [mPrepend, hget]
    rw [hfailed]
    exact ⟨.freed hget, (Held.mFreem hheld).2⟩
  | some mn =>
    have hmn := (prepended_fits (s := s) (mget_fresh hget) m len).2 hlen
    have hdetached := (hfit m List.mem_cons_self).detach
    rw [mPrepend_eq hget]
    refine ⟨.prepended ((hfit.tail.cons hdetached.1).cons hmn) hmn.length ?_, Keeps.refl s others⟩
    rw [bytes_cons, bytes_cons, hdetached.2, bytes_cons]

/-- The `m_len` that `m_prepend` sets says more than the new mbuf has space for. -/
theorem mPrepend_overflows (a : Area) (hlen : capacity m < len) :
    ¬PrependResult s (m :: next) len [some a] (mPrepend m next len [some a] s) := by
  intro hresult
  have hget : (mget [some a]).1 = some ⟨0, 0, none, none, a⟩ := rfl
  rw [mPrepend_eq hget] at hresult
  cases hresult with
  | prepended hfit hlength hbytes =>
    have hle := (prepended_fits (mget_fresh hget) m len).1 (hfit _ List.mem_cons_self)
    omega

end Bsd386.Kern.Mbufs
