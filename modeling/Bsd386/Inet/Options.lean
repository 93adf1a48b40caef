import Mathlib.Algebra.Group.Nat.Defs
import Mathlib.Logic.Function.Basic
import Mathlib.Tactic.SplitIfs

/-!
# Options of a received datagram

`ip_dooptions` of `inet/ip_input.c` goes through the options behind the header of a datagram. The
memory is the bytes from the beginning of the header on. With what it does, the scan returns which
bytes each option has made it read or write through `cp`.
-/

namespace Bsd386.Inet

open Function

/-- `struct in_addr`, in network order. Four bytes of time are moved in the same way. -/
structure InAddr where
  a : UInt8
  b : UInt8
  c : UInt8
  d : UInt8
  deriving DecidableEq, Repr

/-- `memcpy` of four bytes out of the memory. -/
def loadAddr (mem : ℕ → UInt8) (p : ℕ) : InAddr :=
  ⟨mem p, mem (p + 1), mem (p + 2), mem (p + 3)⟩

/-- `memcpy` of four bytes into the memory. -/
def storeAddr (mem : ℕ → UInt8) (p : ℕ) (x : InAddr) : ℕ → UInt8 :=
  update (update (update (update mem p x.a) (p + 1) x.b) (p + 2) x.c) (p + 3) x.d

/-- The bytes of an address by their number. -/
def InAddr.byte (x : InAddr) : ℕ → UInt8
  | 0 => x.a
  | 1 => x.b
  | 2 => x.c
  | _ => x.d

/-- The bytes of such a `memcpy`. -/
def cells (p : ℕ) : List ℕ := [p, p + 1, p + 2, p + 3]

/-- What the tables of the host say of an address, each time with the address of the interface that
is found; the address of the interface where the datagram has come in; and the time. -/
structure Tables where
  ifWithAddr : InAddr → Option InAddr
  ifWithDstaddr : InAddr → Option InAddr
  onNetOf : InAddr → Option InAddr
  rtAddr : InAddr → Option InAddr
  rcvif : InAddr
  iptime : InAddr

def ipOptEol : UInt8 := 0
def ipOptNop : UInt8 := 1
def ipOptRr : UInt8 := 7
def ipOptTs : UInt8 := 68
def ipOptLsrr : UInt8 := 131
def ipOptSsrr : UInt8 := 137

/-- `IPOPT_MINOFF`. -/
def ipOptMinoff : ℕ := 4

def ipOptTsTsonly : ℕ := 0
def ipOptTsTsandaddr : ℕ := 1
def ipOptTsPrespec : ℕ := 3

def icmpUnreach : ℕ := 3
def icmpUnreachHost : ℕ := 1
def icmpUnreachSrcfail : ℕ := 5
def icmpParamprob : ℕ := 12

/-- Whether the scan goes on, and whether the datagram is to be forwarded, or it ends at `bad:`. -/
inductive Verdict
  | next (forward : Bool)
  | bad (type code : ℕ)
  deriving DecidableEq

/-- What an option leaves: the memory, the bytes it has read or written, and how the scan goes on.
-/
structure Handled where
  mem : ℕ → UInt8
  log : List ℕ
  verdict : Verdict

/-- `off > optlen - sizeof(struct in_addr)`, of an `int` and an `unsigned`. -/
def Beyond (off optlen : ℕ) : Prop := (optlen + 2 ^ 32 - 4) % 2 ^ 32 < off

instance (off optlen : ℕ) : Decidable (Beyond off optlen) := inferInstanceAs (Decidable (_ < _))

/-- `ip_dst`. -/
abbrev ipDst (mem : ℕ → UInt8) : InAddr := loadAddr mem 16

/-- The bytes that `save_rte` reads. It saves the option, if there is room. -/
def saveRte (cp : ℕ) (mem : ℕ → UInt8) : List ℕ :=
  let olen := (mem (cp + 1)).toNat
  if 43 < olen then [cp + 1] else (cp + 1) :: (List.range olen).map (cp + ·)

/-- `IPOPT_LSRR` and `IPOPT_SSRR`. -/
def sourceRoute (t : Tables) (strict : Bool) (cp optlen : ℕ) (mem : ℕ → UInt8) : Handled :=
  let ptr := (mem (cp + 2)).toNat
  if ptr < ipOptMinoff then ⟨mem, [cp + 2], .bad icmpParamprob (cp + 2)⟩
  else if t.ifWithAddr (ipDst mem) = none then
    ⟨mem, [cp + 2], if strict then .bad icmpUnreach icmpUnreachSrcfail else .next false⟩
  else
    let off := ptr - 1
    if Beyond off optlen then ⟨mem, (cp + 2) :: saveRte cp mem, .next false⟩
    else
      let hop := loadAddr mem (cp + off)
      match if strict then (t.ifWithDstaddr hop).or (t.onNetOf hop) else t.rtAddr hop with
      | none => ⟨mem, (cp + 2) :: cells (cp + off), .bad icmpUnreach icmpUnreachSrcfail⟩
      | some ia =>
        let mem := storeAddr (storeAddr mem 16 hop) (cp + off) ia
        ⟨update mem (cp + 2) (mem (cp + 2) + 4), (cp + 2) :: cells (cp + off), .next true⟩

/-- `IPOPT_RR`. -/
def recordRoute (t : Tables) (cp optlen : ℕ) (mem : ℕ → UInt8) : Handled :=
  let ptr := (mem (cp + 2)).toNat
  if ptr < ipOptMinoff then ⟨mem, [cp + 2], .bad icmpParamprob (cp + 2)⟩
  else
    let off := ptr - 1
    if Beyond off optlen then ⟨mem, [cp + 2], .next false⟩
    else
      match (t.ifWithAddr (ipDst mem)).or (t.rtAddr (ipDst mem)) with
      | none => ⟨mem, [cp + 2], .bad icmpUnreach icmpUnreachHost⟩
      | some ia =>
        let mem := storeAddr mem (cp + off) ia
        ⟨update mem (cp + 2) (mem (cp + 2) + 4), (cp + 2) :: cells (cp + off), .next false⟩

/-- The end of `IPOPT_TS`: write the time where the pointer says, and move the pointer. -/
def stamp (t : Tables) (cp : ℕ) (mem : ℕ → UInt8) (log : List ℕ) : Handled :=
  let ptr := (mem (cp + 2)).toNat
  let mem := storeAddr mem (cp + ptr - 1) t.iptime
  ⟨update mem (cp + 2) (mem (cp + 2) + 4), log ++ (cp + 2) :: cells (cp + ptr - 1), .next false⟩

/-- `IPOPT_TS`. -/
def timestamp (t : Tables) (cp : ℕ) (mem : ℕ → UInt8) : Handled :=
  let len := (mem (cp + 1)).toNat
  let ptr := (mem (cp + 2)).toNat
  let flg := (mem (cp + 3)).toNat % 16
  if len < 5 then ⟨mem, [cp + 1], .bad icmpParamprob cp⟩
  else if len - 4 < ptr then
    let oflw := mem (cp + 3) + 16
    ⟨update mem (cp + 3) oflw, [cp + 1, cp + 2, cp + 3],
      if oflw.toNat / 16 = 0 then .bad icmpParamprob cp else .next false⟩
  else
    let sin := cp + ptr - 1
    if flg = ipOptTsTsonly then stamp t cp mem [cp + 1, cp + 2, cp + 3]
    else if flg = ipOptTsTsandaddr then
      if len < ptr + 8 then ⟨mem, [cp + 1, cp + 2, cp + 3], .bad icmpParamprob cp⟩
      else
        let mem := storeAddr mem sin t.rcvif
        stamp t cp (update mem (cp + 2) (mem (cp + 2) + 4)) ([cp + 1, cp + 2, cp + 3] ++ cells sin)
    else if flg = ipOptTsPrespec then
      if len < ptr + 8 then ⟨mem, [cp + 1, cp + 2, cp + 3], .bad icmpParamprob cp⟩
      else if t.ifWithAddr (loadAddr mem sin) = none then
        ⟨mem, [cp + 1, cp + 2, cp + 3] ++ cells sin, .next false⟩
      else
        stamp t cp (update mem (cp + 2) (mem (cp + 2) + 4)) ([cp + 1, cp + 2, cp + 3] ++ cells sin)
    else ⟨mem, [cp + 1, cp + 2, cp + 3], .bad icmpParamprob cp⟩

/-- The `switch` on the option. -/
def handle (t : Tables) (opt : UInt8) (cp optlen : ℕ) (mem : ℕ → UInt8) : Handled :=
  if opt = ipOptLsrr then sourceRoute t false cp optlen mem
  else if opt = ipOptSsrr then sourceRoute t true cp optlen mem
  else if opt = ipOptRr then recordRoute t cp optlen mem
  else if opt = ipOptTs then timestamp t cp mem
  else ⟨mem, [], .next false⟩

/-- An option that the scan has come to: where it is, how long, unless the length is rejected, and
the bytes that were read or written. -/
structure Visit where
  cp : ℕ
  extent : Option ℕ
  log : List ℕ
  deriving DecidableEq

/-- What a scan leaves. -/
structure Scan where
  visits : List Visit
  mem : ℕ → UInt8
  verdict : Verdict

/-- An option before the others. -/
def Scan.after (v : Visit) (s : Scan) : Scan := { s with visits := v :: s.visits }

/-- The loop over the options, for at most `fuel` options. -/
def scan (tables : ℕ → Tables) : ℕ → ℕ → ℕ → (ℕ → UInt8) → Bool → Option Scan
  | 0, _, cnt, mem, forward => if cnt = 0 then some ⟨[], mem, .next forward⟩ else none
  | fuel + 1, cp, cnt, mem, forward =>
    if cnt = 0 then some ⟨[], mem, .next forward⟩
    else if mem cp = ipOptEol then some ⟨[⟨cp, some 1, [cp]⟩], mem, .next forward⟩
    else if mem cp = ipOptNop then
      (scan tables fuel (cp + 1) (cnt - 1) mem forward).map (.after ⟨cp, some 1, [cp]⟩)
    else
      let optlen := (mem (cp + 1)).toNat
      if optlen = 0 ∨ cnt < optlen then
        some ⟨[⟨cp, none, [cp, cp + 1]⟩], mem, .bad icmpParamprob (cp + 1)⟩
      else
        let h := handle (tables cp) (mem cp) cp optlen mem
        let visit := ⟨cp, some optlen, cp :: (cp + 1) :: h.log⟩
        match h.verdict with
        | .bad type code => some ⟨[visit], h.mem, .bad type code⟩
        | .next forward' =>
          (scan tables fuel (cp + optlen) (cnt - optlen) h.mem (forward || forward')).map
            (.after visit)

/-- `ip_hl`. -/
def ipHl (mem : ℕ → UInt8) : ℕ := (mem 0).toNat % 16

/-- `ip_dooptions`. Each option takes at least one byte. -/
def ipDooptions (tables : ℕ → Tables) (mem : ℕ → UInt8) : Option Scan :=
  scan tables (ipHl mem * 4 - 20) 20 (ipHl mem * 4 - 20) mem false

end Bsd386.Inet

/-!
# The bytes that options read and write

`ip_dooptions` looks at the length of an option before it knows that there is one, and compares the
pointers of the options with what is left behind subtracting, without a lower bound. What follows is
when a scan stays inside each option all the same.
-/

namespace Bsd386.Inet

open Function

variable {t : Tables} {cp optlen p n a : ℕ} {mem : ℕ → UInt8} {l m : List ℕ}

/-- All bytes are in the range. -/
def Within (cp optlen : ℕ) (l : List ℕ) : Prop := ∀ a ∈ l, cp ≤ a ∧ a < cp + optlen

theorem within_nil : Within cp n [] ↔ True :=
  iff_of_true (fun _ h ↦ absurd h List.not_mem_nil) trivial

theorem within_cons : Within cp n (a :: l) ↔ (cp ≤ a ∧ a < cp + n) ∧ Within cp n l :=
  List.forall_mem_cons

theorem within_append : Within cp n (l ++ m) ↔ Within cp n l ∧ Within cp n m :=
  List.forall_mem_append

theorem within_cells : Within cp n (cells p) ↔ cp ≤ p ∧ p + 4 ≤ cp + n := by
  simp only [cells, within_cons, within_nil, and_true]
  omega

/-- The subtraction in the comparison wraps for short options. -/
theorem beyond_iff {off : ℕ} (hoff : off < 256) (hlen : optlen < 256) :
    Beyond off optlen ↔ 4 ≤ optlen ∧ optlen < off + 4 := by
  have hpow : 2 ^ 32 = 4294967296 := rfl
  rw [Beyond, hpow]
  omega

/-- What `IPOPT_LSRR` and `IPOPT_SSRR` must look like: with a length of 3, either the pointer is
rejected, or the datagram is not yet where its route says. -/
def RouteFits (t : Tables) (cp optlen : ℕ) (mem : ℕ → UInt8) : Prop :=
  3 ≤ optlen ∧ (optlen = 3 → (mem (cp + 2)).toNat < ipOptMinoff ∨ t.ifWithAddr (ipDst mem) = none)

theorem within_sourceRoute {strict : Bool} (hlen : (mem (cp + 1)).toNat = optlen)
    (hmin : 2 ≤ optlen) :
    Within cp optlen (sourceRoute t strict cp optlen mem).log ↔ RouteFits t cp optlen mem := by
  have hptr : (mem (cp + 2)).toNat < 256 := UInt8.toNat_lt _
  have hbyte : optlen < 256 := hlen ▸ UInt8.toNat_lt _
  have hthird : Within cp optlen [cp + 2] ↔ 3 ≤ optlen := by
    simp only [within_cons, within_nil, and_true]
    omega
  rw [RouteFits, sourceRoute]
  by_cases hoff : (mem (cp + 2)).toNat < ipOptMinoff
  · rw [if_pos hoff]
    exact hthird.trans (iff_self_and.mpr fun _ _ ↦ .inl hoff)
  rw [if_neg hoff]
  by_cases hif : t.ifWithAddr (ipDst mem) = none
  · rw [if_pos hif]
    exact hthird.trans (iff_self_and.mpr fun _ _ ↦ .inr hif)
  rw [if_neg hif]
  simp only
  have hiff := beyond_iff (show (mem (cp + 2)).toNat - 1 < 256 by omega) hbyte
  by_cases hbeyond : Beyond ((mem (cp + 2)).toNat - 1) optlen
  · rw [if_pos hbeyond]
    have hlong := (hiff.mp hbeyond).1
    refine iff_of_true (within_cons.mpr ⟨by omega, ?_⟩) ⟨by omega, fun h ↦ by omega⟩
    unfold saveRte
    dsimp only
    split_ifs
    · exact within_cons.mpr ⟨by omega, within_nil.mpr trivial⟩
    · refine within_cons.mpr ⟨by omega, fun a ha ↦ ?_⟩
      obtain ⟨i, hi, rfl⟩ := List.mem_map.mp ha
      have hlt := List.mem_range.mp hi
      omega
  · rw [if_neg hbeyond]
    have hlog : Within cp optlen ((cp + 2) :: cells (cp + ((mem (cp + 2)).toNat - 1))) ↔
        3 ≤ optlen ∧ (optlen = 3 → (mem (cp + 2)).toNat < ipOptMinoff ∨
          t.ifWithAddr (ipDst mem) = none) := by
      rw [hiff] at hbeyond
      rw [within_cons, within_cells]
      unfold ipOptMinoff at *
      simp only [hif, or_false]
      omega
    split
    · exact hlog
    · exact hlog

/-- What `IPOPT_RR` must look like: with a length of 3, either the pointer is rejected, or there is
no interface to record. -/
def RecordFits (t : Tables) (cp optlen : ℕ) (mem : ℕ → UInt8) : Prop :=
  3 ≤ optlen ∧ (optlen = 3 → (mem (cp + 2)).toNat < ipOptMinoff ∨
    (t.ifWithAddr (ipDst mem) = none ∧ t.rtAddr (ipDst mem) = none))

theorem within_recordRoute (hbyte : optlen < 256) (hmin : 2 ≤ optlen) :
    Within cp optlen (recordRoute t cp optlen mem).log ↔ RecordFits t cp optlen mem := by
  have hptr : (mem (cp + 2)).toNat < 256 := UInt8.toNat_lt _
  have hthird : Within cp optlen [cp + 2] ↔ 3 ≤ optlen := by
    simp only [within_cons, within_nil, and_true]
    omega
  rw [RecordFits, recordRoute]
  by_cases hoff : (mem (cp + 2)).toNat < ipOptMinoff
  · rw [if_pos hoff]
    exact hthird.trans (iff_self_and.mpr fun _ _ ↦ .inl hoff)
  rw [if_neg hoff]
  simp only
  have hiff := beyond_iff (show (mem (cp + 2)).toNat - 1 < 256 by omega) hbyte
  by_cases hbeyond : Beyond ((mem (cp + 2)).toNat - 1) optlen
  · rw [if_pos hbeyond]
    have hlong := (hiff.mp hbeyond).1
    exact hthird.trans (iff_self_and.mpr fun _ h ↦ by omega)
  · rw [if_neg hbeyond, ← Option.or_eq_none_iff]
    rw [hiff] at hbeyond
    split
    next hnone => exact hthird.trans (iff_self_and.mpr fun _ _ ↦ .inr hnone)
    next ia hsome =>
      rw [hsome, within_cons, within_cells]
      unfold ipOptMinoff at *
      simp only [reduceCtorEq, or_false]
      omega

/-! ## Timestamps -/

theorem storeAddr_of_lt {q : ℕ} (x : InAddr) (hq : q < p) : storeAddr mem p x q = mem q := by
  unfold storeAddr
  rw [update_of_ne (by omega), update_of_ne (by omega), update_of_ne (by omega),
    update_of_ne (by omega)]

theorem storeAddr_of_ge {q : ℕ} (x : InAddr) (hq : p + 4 ≤ q) : storeAddr mem p x q = mem q := by
  unfold storeAddr
  rw [update_of_ne (by omega), update_of_ne (by omega), update_of_ne (by omega),
    update_of_ne (by omega)]

theorem storeAddr_third (x : InAddr) : storeAddr mem (p + 2) x (p + 2) = x.a := by
  unfold storeAddr
  rw [update_of_ne (by omega), update_of_ne (by omega), update_of_ne (by omega), update_self]

theorem storeAddr_second (x : InAddr) : storeAddr mem (p + 1) x (p + 2) = x.b := by
  unfold storeAddr
  rw [update_of_ne (by omega), update_of_ne (by omega), update_self]

theorem storeAddr_first (x : InAddr) : storeAddr mem p x (p + 2) = x.c := by
  unfold storeAddr
  rw [update_of_ne (by omega), update_self]

/-- The pointer of `IPOPT_TS_TSANDADDR` after the address is written: it may have been written over.
-/
def movedPtr (t : Tables) (ptr : ℕ) : ℕ :=
  if ptr < 4 then (t.rcvif.byte (3 - ptr) + 4).toNat else ptr + 4

/-- What `IPOPT_TS` must look like if there is room for a timestamp: the pointer is not 0, and an
address that is written over the pointer leaves one inside the option. -/
def StampFits (t : Tables) (cp optlen : ℕ) (mem : ℕ → UInt8) : Prop :=
  let ptr := (mem (cp + 2)).toNat
  let flg := (mem (cp + 3)).toNat % 16
  5 ≤ optlen → ptr + 4 ≤ optlen →
    (flg = ipOptTsTsonly → 1 ≤ ptr) ∧
    (flg = ipOptTsTsandaddr → ptr + 8 ≤ optlen →
      1 ≤ ptr ∧ 1 ≤ movedPtr t ptr ∧ movedPtr t ptr + 3 ≤ optlen) ∧
    (flg = ipOptTsPrespec → ptr + 8 ≤ optlen → 1 ≤ ptr)

theorem within_stamp (hcp : 1 ≤ cp) (hl : Within cp n l) (hn : 3 ≤ n) :
    Within cp n (stamp t cp mem l).log ↔
      1 ≤ (mem (cp + 2)).toNat ∧ (mem (cp + 2)).toNat + 3 ≤ n := by
  rw [stamp, within_append, within_cons, within_cells]
  simp only [hl, true_and]
  omega

theorem toNat_movedPtr (hcp : 1 ≤ cp) (hptr : 1 ≤ (mem (cp + 2)).toNat)
    (hroom : (mem (cp + 2)).toNat + 8 ≤ 255) :
    (storeAddr mem (cp + (mem (cp + 2)).toNat - 1) t.rcvif (cp + 2) + 4).toNat =
      movedPtr t (mem (cp + 2)).toNat := by
  unfold movedPtr
  split_ifs with hlow
  · generalize (mem (cp + 2)).toNat = ptr at *
    obtain rfl | rfl | rfl : ptr = 1 ∨ ptr = 2 ∨ ptr = 3 := by omega
    · rw [show cp + 1 - 1 = cp by omega, storeAddr_first]
      rfl
    · rw [show cp + 2 - 1 = cp + 1 by omega, storeAddr_second]
      rfl
    · rw [show cp + 3 - 1 = cp + 2 by omega, storeAddr_third]
      rfl
  · rw [storeAddr_of_lt _ (by omega), UInt8.toNat_add]
    exact Nat.mod_eq_of_lt (show (mem (cp + 2)).toNat + 4 < 256 by omega)

theorem within_timestamp (hcp : 1 ≤ cp) (hlen : (mem (cp + 1)).toNat = optlen) (hmin : 2 ≤ optlen) :
    Within cp optlen (timestamp t cp mem).log ↔ StampFits t cp optlen mem := by
  have hbyte : optlen < 256 := hlen ▸ UInt8.toNat_lt _
  unfold timestamp StampFits
  simp only [hlen]
  by_cases hshort : optlen < 5
  · rw [if_pos hshort]
    refine iff_of_true ?_ fun h ↦ by omega
    simp only [within_cons, within_nil, and_true]
    omega
  rw [if_neg hshort]
  have hfour : Within cp optlen [cp + 1, cp + 2, cp + 3] := by
    simp only [within_cons, within_nil, and_true]
    omega
  by_cases hfull : optlen - 4 < (mem (cp + 2)).toNat
  · rw [if_pos hfull]
    exact iff_of_true hfour fun _ h ↦ by omega
  rw [if_neg hfull]
  have hroom : (mem (cp + 2)).toNat + 4 ≤ optlen := by omega
  simp only [Nat.not_lt.mp hshort, hroom, true_imp_iff]
  by_cases htsonly : (mem (cp + 3)).toNat % 16 = ipOptTsTsonly
  · rw [if_pos htsonly, within_stamp hcp hfour (by omega), htsonly]
    simp only [ipOptTsTsonly, ipOptTsTsandaddr, ipOptTsPrespec, true_imp_iff]
    omega
  rw [if_neg htsonly]
  by_cases haddr : (mem (cp + 3)).toNat % 16 = ipOptTsTsandaddr
  · rw [if_pos haddr, haddr]
    simp only [ipOptTsTsonly, ipOptTsTsandaddr, ipOptTsPrespec, true_imp_iff]
    by_cases hnone : optlen < (mem (cp + 2)).toNat + 8
    · rw [if_pos hnone]
      exact iff_of_true hfour (by omega)
    rw [if_neg hnone]
    by_cases hzero : (mem (cp + 2)).toNat = 0
    · refine iff_of_false (fun h ↦ ?_) (by omega)
      have hcells := within_cells.mp (within_append.mp (within_append.mp h).1).2
      omega
    · have hlog :
        Within cp optlen ([cp + 1, cp + 2, cp + 3] ++ cells (cp + (mem (cp + 2)).toNat - 1)) :=
        within_append.mpr ⟨hfour, within_cells.mpr (by omega)⟩
      rw [within_stamp hcp hlog (by omega), update_self, toNat_movedPtr hcp (by omega) (by omega)]
      omega
  rw [if_neg haddr]
  by_cases hprespec : (mem (cp + 3)).toNat % 16 = ipOptTsPrespec
  · rw [if_pos hprespec, hprespec]
    simp only [ipOptTsTsonly, ipOptTsTsandaddr, ipOptTsPrespec, true_imp_iff]
    by_cases hnone : optlen < (mem (cp + 2)).toNat + 8
    · rw [if_pos hnone]
      exact iff_of_true hfour (by omega)
    rw [if_neg hnone]
    have hlog :
      Within cp optlen ([cp + 1, cp + 2, cp + 3] ++ cells (cp + (mem (cp + 2)).toNat - 1)) ↔
        1 ≤ (mem (cp + 2)).toNat := by
      rw [within_append, within_cells]
      simp only [hfour, true_and]
      omega
    by_cases hours : t.ifWithAddr (loadAddr mem (cp + (mem (cp + 2)).toNat - 1)) = none
    · rw [if_pos hours, hlog]
      omega
    · rw [if_neg hours]
      by_cases hzero : (mem (cp + 2)).toNat = 0
      · refine iff_of_false (fun h ↦ ?_) (by omega)
        have hcells := within_cells.mp (within_append.mp (within_append.mp h).1).2
        omega
      · have hmoved : (mem (cp + 2) + 4).toNat = (mem (cp + 2)).toNat + 4 := by
          rw [UInt8.toNat_add]
          exact Nat.mod_eq_of_lt (show (mem (cp + 2)).toNat + 4 < 256 by omega)
        rw [within_stamp hcp (hlog.mpr (by omega)) (by omega), update_self, hmoved]
        omega
  · rw [if_neg hprespec]
    exact iff_of_true hfour ⟨fun h ↦ absurd h htsonly, fun h ↦ absurd h haddr,
      fun h ↦ absurd h hprespec⟩

/-! ## Whole scans -/

/-- What an option with an accepted length must look like. -/
structure OptionFits (t : Tables) (opt : UInt8) (cp optlen : ℕ) (mem : ℕ → UInt8) : Prop where
  length : 2 ≤ optlen
  route : opt = ipOptLsrr ∨ opt = ipOptSsrr → RouteFits t cp optlen mem
  record : opt = ipOptRr → RecordFits t cp optlen mem
  stamp : opt = ipOptTs → StampFits t cp optlen mem

theorem within_handle (t : Tables) (opt : UInt8) (hcp : 1 ≤ cp)
    (hlen : (mem (cp + 1)).toNat = optlen) :
    Within cp optlen (cp :: (cp + 1) :: (handle t opt cp optlen mem).log) ↔
      OptionFits t opt cp optlen mem := by
  have hbyte : optlen < 256 := hlen ▸ UInt8.toNat_lt _
  rw [within_cons, within_cons]
  by_cases hmin : 2 ≤ optlen
  · have hfirst : (cp ≤ cp ∧ cp < cp + optlen) ∧ (cp ≤ cp + 1 ∧ cp + 1 < cp + optlen) := by omega
    refine (and_iff_right hfirst.1).trans ((and_iff_right hfirst.2).trans ?_)
    unfold handle
    by_cases hlsrr : opt = ipOptLsrr
    · rw [if_pos hlsrr, within_sourceRoute hlen hmin, hlsrr]
      exact ⟨fun h ↦ ⟨hmin, fun _ ↦ h, fun h' ↦ absurd h' (by decide),
        fun h' ↦ absurd h' (by decide)⟩,
        fun h ↦ h.route (.inl rfl)⟩
    rw [if_neg hlsrr]
    by_cases hssrr : opt = ipOptSsrr
    · rw [if_pos hssrr, within_sourceRoute hlen hmin, hssrr]
      exact ⟨fun h ↦ ⟨hmin, fun _ ↦ h, fun h' ↦ absurd h' (by decide),
        fun h' ↦ absurd h' (by decide)⟩,
        fun h ↦ h.route (.inr rfl)⟩
    rw [if_neg hssrr]
    have hroute : ¬(opt = ipOptLsrr ∨ opt = ipOptSsrr) := not_or.mpr ⟨hlsrr, hssrr⟩
    by_cases hrr : opt = ipOptRr
    · rw [if_pos hrr, within_recordRoute hbyte hmin, hrr]
      exact ⟨fun h ↦ ⟨hmin, fun h' ↦ absurd h' (by decide), fun _ ↦ h,
        fun h' ↦ absurd h' (by decide)⟩,
        fun h ↦ h.record rfl⟩
    rw [if_neg hrr]
    by_cases hts : opt = ipOptTs
    · rw [if_pos hts, within_timestamp hcp hlen hmin]
      exact ⟨fun h ↦ ⟨hmin, fun h' ↦ absurd h' hroute, fun h' ↦ absurd h' hrr, fun _ ↦ h⟩,
        fun h ↦ h.stamp hts⟩
    rw [if_neg hts]
    exact iff_of_true (within_nil.mpr trivial)
      ⟨hmin, fun h' ↦ absurd h' hroute, fun h' ↦ absurd h' hrr, fun h' ↦ absurd h' hts⟩
  · refine iff_of_false (fun h ↦ ?_) fun h ↦ hmin h.length
    omega

/-- What the options from `cp` on must look like: none but `IPOPT_EOL` and `IPOPT_NOP` begins in the
last byte of the header, and each one up to the end of the scan fits. -/
def ScanFits (tables : ℕ → Tables) : ℕ → ℕ → ℕ → (ℕ → UInt8) → Prop
  | 0, _, _, _ => True
  | fuel + 1, cp, cnt, mem =>
    cnt ≠ 0 → mem cp ≠ ipOptEol →
      if mem cp = ipOptNop then ScanFits tables fuel (cp + 1) (cnt - 1) mem
      else
        let optlen := (mem (cp + 1)).toNat
        if optlen = 0 ∨ cnt < optlen then 2 ≤ cnt
        else OptionFits (tables cp) (mem cp) cp optlen mem ∧
          ∀ forward, (handle (tables cp) (mem cp) cp optlen mem).verdict = .next forward →
            ScanFits tables fuel (cp + optlen) (cnt - optlen)
              (handle (tables cp) (mem cp) cp optlen mem).mem

/-- The option has stayed inside the header, and inside itself if its length is accepted. -/
def Visit.Inside (hlen : ℕ) (v : Visit) : Prop :=
  ∀ a ∈ v.log, a < hlen ∧ ∀ optlen, v.extent = some optlen → v.cp ≤ a ∧ a < v.cp + optlen

theorem inside_some (hlen : ℕ) (hfits : cp + optlen ≤ hlen) :
    (⟨cp, some optlen, l⟩ : Visit).Inside hlen ↔ Within cp optlen l := by
  constructor
  · exact fun h a ha ↦ (h a ha).2 optlen rfl
  · intro h a ha
    refine ⟨Nat.lt_of_lt_of_le (h a ha).2 hfits, fun n hn ↦ ?_⟩
    cases hn
    exact h a ha

theorem inside_first {hlen : ℕ} (hfits : cp + 1 ≤ hlen) :
    (⟨cp, some 1, [cp]⟩ : Visit).Inside hlen :=
  (inside_some hlen hfits).mpr
    (within_cons.mpr ⟨⟨Nat.le_refl cp, Nat.lt_succ_self cp⟩, within_nil.mpr trivial⟩)

theorem forall_inside_after {hlen : ℕ} {v : Visit} {s : Scan} :
    (∀ w ∈ (s.after v).visits, w.Inside hlen) ↔ v.Inside hlen ∧ ∀ w ∈ s.visits, w.Inside hlen :=
  List.forall_mem_cons

variable {tables : ℕ → Tables} {fuel cnt hlen : ℕ} {forward : Bool}

/-- The scan ends, and it stays inside each option just if the options fit. -/
theorem scan_inside (hcp : 1 ≤ cp) (hend : cp + cnt = hlen) (hfuel : cnt ≤ fuel) :
    ∃ s, scan tables fuel cp cnt mem forward = some s ∧
      ((∀ v ∈ s.visits, v.Inside hlen) ↔ ScanFits tables fuel cp cnt mem) := by
  induction fuel generalizing cp cnt mem forward with
  | zero =>
    rw [scan, if_pos (Nat.le_zero.mp hfuel)]
    exact ⟨_, rfl, iff_of_true (fun v hv ↦ absurd hv List.not_mem_nil) trivial⟩
  | succ fuel ih =>
    rw [scan, ScanFits]
    by_cases hcnt : cnt = 0
    · rw [if_pos hcnt]
      exact ⟨_, rfl, iff_of_true (fun v hv ↦ absurd hv List.not_mem_nil) fun h ↦ absurd hcnt h⟩
    rw [if_neg hcnt, imp_iff_right hcnt]
    have hfirst : (⟨cp, some 1, [cp]⟩ : Visit).Inside hlen := inside_first (by omega)
    by_cases heol : mem cp = ipOptEol
    · rw [if_pos heol]
      exact ⟨_, rfl, iff_of_true (List.forall_mem_singleton.mpr hfirst) fun h ↦ absurd heol h⟩
    rw [if_neg heol, imp_iff_right heol]
    by_cases hnop : mem cp = ipOptNop
    · rw [if_pos hnop, if_pos hnop]
      obtain ⟨s, hs, hiff⟩ := @ih (cp + 1) mem (cnt - 1) forward
        (by omega) (by omega) (by omega)
      refine ⟨s.after _, congrArg (Option.map _) hs, forall_inside_after.trans ?_⟩
      rw [hiff]
      exact and_iff_right hfirst
    rw [if_neg hnop, if_neg hnop]
    simp only
    generalize hlen' : (mem (cp + 1)).toNat = optlen
    by_cases hreject : optlen = 0 ∨ cnt < optlen
    · rw [if_pos hreject, if_pos hreject]
      refine ⟨_, rfl, List.forall_mem_singleton.trans ⟨fun h ↦ ?_, fun h a ha ↦ ⟨?_, ?_⟩⟩⟩
      · have hsecond := (h (cp + 1) (List.mem_cons_of_mem _ List.mem_cons_self)).1
        omega
      · rcases List.mem_cons.mp ha with rfl | ha
        · omega
        · rw [List.mem_singleton.mp ha]
          omega
      · intro n hn
        cases hn
    rw [if_neg hreject, if_neg hreject]
    obtain ⟨hpos, hle⟩ := not_or.mp hreject
    have hvisit := (inside_some hlen (by omega)).trans
      (within_handle (tables cp) (mem cp) hcp hlen')
    generalize hverdict : (handle (tables cp) (mem cp) cp optlen mem).verdict = verdict
    cases verdict with
    | bad type code =>
      refine ⟨_, rfl, List.forall_mem_singleton.trans (hvisit.trans ?_)⟩
      exact iff_self_and.mpr fun _ f hf ↦ (by cases hf)
    | next forward' =>
      obtain ⟨s, hs, hiff⟩ := @ih (cp + optlen)
        (handle (tables cp) (mem cp) cp optlen mem).mem (cnt - optlen) (forward || forward')
        (by omega) (by omega) (by omega)
      refine ⟨s.after _, congrArg (Option.map _) hs, forall_inside_after.trans ?_⟩
      rw [hvisit, hiff]
      exact and_congr_right fun _ ↦ ⟨fun h f _ ↦ h, fun h ↦ h _ rfl⟩

/-- `ip_dooptions` ends on every header, and all that it reads and writes for an option lies in that
option and in the header, just if the options fit. -/
theorem ip_dooptions_inside (tables : ℕ → Tables) (mem : ℕ → UInt8) (hhl : 5 ≤ ipHl mem) :
    ∃ s, ipDooptions tables mem = some s ∧
      ((∀ v ∈ s.visits, v.Inside (ipHl mem * 4)) ↔
        ScanFits tables (ipHl mem * 4 - 20) 20 (ipHl mem * 4 - 20) mem) :=
  scan_inside (by decide) (by omega) (Nat.le_refl _)

/-- A memory that begins with some bytes. -/
def memory (l : List UInt8) (i : ℕ) : UInt8 := l.getD i 0

/-- A header of 24 bytes with an option of four bytes. -/
def headerWith (a b c d : UInt8) : ℕ → UInt8 :=
  memory [0x46, 0, 0, 24, 0, 0, 0, 0, 64, 17, 0, 0, 10, 0, 0, 2, 10, 0, 0, 1, a, b, c, d]

/-- Tables where each address is one of the host, or unknown. -/
def plainTables (found : Option InAddr) : ℕ → Tables := fun _ ↦
  ⟨fun _ ↦ found, fun _ ↦ found, fun _ ↦ found, fun _ ↦ found, ⟨10, 0, 0, 1⟩, ⟨0, 0, 0, 0⟩⟩

/-- A record route of three bytes, for an address that is unknown. -/
theorem ip_dooptions_inside_record :
    ∃ s, ipDooptions (plainTables none) (headerWith 7 3 4 0) = some s ∧
      ∀ v ∈ s.visits, v.Inside 24 := by
  obtain ⟨s, hs, hiff⟩ :=
    ip_dooptions_inside (plainTables none) (headerWith 7 3 4 0) (by decide)
  refine ⟨s, hs, hiff.mpr fun _ _ ↦ ?_⟩
  refine ⟨⟨by decide, fun h ↦ absurd h (by decide), fun _ ↦ ⟨by decide, fun _ ↦ .inr ⟨rfl, rfl⟩⟩,
    fun h ↦ absurd h (by decide)⟩, fun forward hforward ↦ ?_⟩
  have hbad : (handle (plainTables none 20) 7 20 3 (headerWith 7 3 4 0)).verdict =
      .bad icmpUnreach icmpUnreachHost := by decide
  cases hbad.symm.trans hforward

/-- A loose source route of three bytes that points behind itself: the next hop is read out of the
four bytes from the last one of the header on. -/
theorem ip_dooptions_outside :
    ¬∀ (tables : ℕ → Tables) (mem : ℕ → UInt8), 5 ≤ ipHl mem →
      ∃ s, ipDooptions tables mem = some s ∧ ∀ v ∈ s.visits, v.Inside (ipHl mem * 4) := by
  intro hall
  obtain ⟨s, hs, hinside⟩ := hall (plainTables (some ⟨10, 0, 0, 1⟩)) (headerWith 131 3 4 0)
    (by decide)
  have hvisits : (ipDooptions (plainTables (some ⟨10, 0, 0, 1⟩)) (headerWith 131 3 4 0)).map
      (·.visits.head?) = some (some ⟨20, some 3, [20, 21, 22, 23, 24, 25, 26]⟩) := by decide
  rw [hs] at hvisits
  have hmem := List.mem_of_head? (Option.some.inj hvisits)
  exact absurd (hinside _ hmem 26 (by decide)).1 (by decide)

end Bsd386.Inet
