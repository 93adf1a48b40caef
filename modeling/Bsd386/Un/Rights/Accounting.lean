import Mathlib.Algebra.BigOperators.Ring.Finset
import Bsd386.Un.Rights.Receive

/-!
# Rights are accounted for

Each step that meets its condition keeps the invariant, and the invariant says what the counts are.
-/

namespace Bsd386.Un

open Kern (Fault)
open Kern.Descrip (Filedesc)

variable {F S : Type} [DecidableEq F] {s s' : System F S}

/-! ### Steps -/

theorem set_of_getElem? {A : Type} {l : List A} {i : ℕ} {a : A} (hget : l[i]? = some a) :
    l.set i a = l := by
  obtain ⟨hlt, rfl⟩ := List.getElem?_eq_some_iff.mp hget
  exact List.set_getElem_self hlt

section Receive

variable [DecidableEq S]

/-- A message is received. -/
theorem Sound.exec_receive {p : ℕ} {x : S} {controlp : Bool} (hsound : Sound s none)
    (hmeets : (Event.receive p x controlp).Meets s) :
    ∃ s' r, s.exec (.receive p x controlp) = .ok (s', r) ∧ Sound s' none ∧ Received s s' p x r := by
  rw [System.exec]
  rcases hp : s.procs[p]? with _ | ⟨lim, _ | fdp⟩
  · refine ⟨s, none, rfl, hsound, fun lim fdp hthis ↦ ?_⟩
    rw [hp] at hthis
    cases hthis
  · refine ⟨s, none, rfl, hsound, fun lim fdp hthis ↦ ?_⟩
    rw [hp] at hthis
    cases hthis
  · obtain ⟨hx, hcase⟩ := hmeets lim fdp hp
    obtain ⟨t, e, hrun, ht, hprocs, hin, he⟩ := hsound.receive hx
      (hcase.imp_right fun h ↦ ⟨h.1, h.2.1, h.2.2.2⟩)
    have hset : t.procs.set p ⟨lim, some fdp⟩ = t.procs := set_of_getElem? (hprocs ▸ hp)
    have hsame : { t with procs := t.procs.set p ⟨lim, some fdp⟩ } = t := by rw [hset]
    refine ⟨t, e, ?_, ht, fun lim' fdp' hthis ↦ ?_⟩
    · dsimp only
      rw [hrun, ok_bind]
      dsimp only
      rw [hsame]
      rfl
    · rw [hp] at hthis
      cases hthis
      refine ⟨hin, fdp, by rw [hprocs, set_of_getElem? hp], ?_⟩
      rcases hcase with hnil | ⟨-, -, hfew, -⟩
      · rw [hnil, List.length_nil, if_pos (Nat.zero_le _)]
        rfl
      · rw [if_neg (Nat.not_le.mpr hfew)]
        refine ⟨rfl, he fun hnil ↦ ?_⟩
        rw [hnil] at hfew
        exact absurd hfew (Nat.not_lt_zero _)

/-- There is nothing to collect. -/
theorem Sound.exec_gc (hsound : Sound s none) (hmeets : (Event.gc (F := F) (S := S)).Meets s) :
    s.exec .gc = .ok (s, none) := by
  rw [System.exec, unpGc_eq hsound.traversable hsound.gcing fun f hf _ ↦ hmeets f hf]
  rfl

end Receive

/-- Others leave the counts right. -/
theorem Sound.others (hsound : Sound s none) (hothers : Others s s') : Sound s' none := by
  have hin : ∀ f, s'.inFlight f = s.inFlight f := fun f ↦ hothers.flying.count_eq (some f)
  have hmem : ∀ f, s.inFlight f ≠ 0 ↔ some f ∈ s.flying := fun f ↦ by
    rw [System.inFlight, ← Nat.pos_iff_ne_zero, List.count_pos_iff]
  have hmsg : ∀ f ∈ s'.filehead, s'.msgcount f = s'.inFlight f := by
    intro f hf
    rw [hothers.msgcount f hf, hin]
    by_cases hflying : some f ∈ s.flying
    · have hhead := hsound.tally.mem f (by
        have hthis := (hmem f).mpr hflying
        omega)
      rw [if_pos hflying]
      exact hsound.tally.msgcount f hhead
    · rw [if_neg hflying, not_ne_iff.mp (mt (hmem f).mp hflying)]
      rfl
  have hcount : ∀ f ∈ s'.filehead, s'.count f = (s'.uses f + s'.inFlight f : ℕ) := by
    intro f hf
    have hthis := hothers.counted f hf
    have hthis' := hmsg f hf
    omega
  refine ⟨hothers.tables, ⟨hothers.nodup, hcount, hmsg, hothers.small, fun f ↦ Nat.le_add_left _ _,
    fun f hne ↦ ?_, fun f hf hzero ↦ ?_, fun f hf ↦ absurd hf (Option.some_ne_none f).symm⟩, ?_,
    fun hnone ↦ ?_, hothers.shape, hothers.linked,
    hothers.gcing⟩
  · by_cases huses : s'.uses f = 0
    · apply hothers.kept
      rw [← hmem, ← hin]
      omega
    · exact hothers.named f huses
  · have hthis := hcount f hf
    rw [hzero] at hthis
    exact absurd hthis (hothers.referenced f hf)
  · rw [hothers.rights, hothers.flying.length_eq]
    exact hsound.rights
  · exact hsound.whole (hothers.flying.mem_iff.mp hnone)

/-! ### Runs -/

variable [DecidableEq S]

theorem Sound.exec {e : Event F S} {r : Option Errno} (hsound : Sound s none) (hmeets : e.Meets s)
    (hexec : s.exec e = .ok (s', r)) : Sound s' none := by
  cases e with
  | send p x nam d control fresh => exact hsound.exec_send hmeets hexec
  | receive p x controlp =>
    obtain ⟨t, e, hrun, ht, -⟩ := hsound.exec_receive hmeets
    rw [hrun] at hexec
    cases hexec
    exact ht
  | close p fd =>
    obtain ⟨t, e, hrun, ht⟩ := hsound.exec_close hmeets
    rw [hrun] at hexec
    cases hexec
    exact ht
  | gc =>
    rw [hsound.exec_gc hmeets] at hexec
    cases hexec
    exact hsound

/-- The states that steps within their conditions lead to are right. -/
theorem Reach.sound (hreach : Reach (fun s (e : Event F S) ↦ e.Meets s) s) : Sound s none := by
  induction hreach with
  | start hsound => exact hsound
  | step hreach hallowed hexec ih => exact ih.exec hallowed hexec
  | others hreach hothers ih => exact ih.others hothers

omit [DecidableEq S] in
/-- All pointers in messages are to open files, so that the sum over these is their number. -/
theorem sum_count {files : List F} (hnodup : files.Nodup) {rights : List F}
    (hopen : ∀ f ∈ rights, f ∈ files) :
    (files.map fun f ↦ (rights.count f : ℤ)).sum = rights.length := by
  have hsum : (files.map fun f ↦ rights.count f).sum = rights.length := by
    have hcard := Multiset.sum_count_eq_card (m := (rights : Multiset F)) fun f hf ↦
      List.mem_toFinset.mpr (hopen f hf)
    rw [← List.sum_toFinset _ hnodup]
    simpa only [Multiset.coe_count, Multiset.coe_card] using hcard
  rw [← hsum, Nat.cast_list_sum, List.map_map]
  rfl

omit [DecidableEq S] in
theorem Sound.accounted (hsound : Sound s none) : s.Accounted := by
  have hmsg := hsound.tally.msgcount
  refine ⟨fun f hf ↦ ⟨hmsg f hf, ?_⟩, ?_⟩
  · rw [hmsg f hf, hsound.tally.count f hf]
    rfl
  · obtain ⟨files, hfiles⟩ := exists_map_some hsound.whole
    have hin : ∀ f, s.inFlight f = files.count f := fun f ↦ by
      rw [System.inFlight, hfiles, count_map_some]
    have hmap : s.filehead.map s.msgcount = s.filehead.map fun f ↦ (files.count f : ℤ) :=
      List.map_congr_left fun f hf ↦ by rw [hmsg f hf, hin]
    rw [hmap, sum_count hsound.tally.nodup, hsound.rights, hfiles, List.length_map]
    intro f hf
    apply hsound.tally.mem
    have hpos := List.count_pos_iff.mpr hf
    have hthis := hin f
    omega

/-- In a run whose steps meet their conditions the rights in flight are accounted for, and a message
that is received within its condition gets descriptors or is discarded. -/
theorem rights_accounted (hreach : Reach (fun s (e : Event F S) ↦ e.Meets s) s) :
    s.Accounted ∧ ∀ p x controlp, (Event.receive p x controlp).Meets s →
      ∃ s' r, s.exec (.receive p x controlp) = .ok (s', r) ∧ Received s s' p x r := by
  refine ⟨hreach.sound.accounted, fun p x controlp hmeets ↦ ?_⟩
  obtain ⟨s', r, hrun, -, hreceived⟩ := hreach.sound.exec_receive hmeets
  exact ⟨s', r, hrun, hreceived⟩

/-! ### A pair of sockets -/

/-- A table with both sockets and another file. -/
def pairTable : Filedesc (Fin 3) :=
  ⟨[⟨some 0, 0⟩, ⟨some 1, 0⟩, ⟨some 2, 0⟩] ++ List.replicate 17 ⟨none, 0⟩, 2, 2, 1⟩

/-- A process with a pair of datagram sockets that are connected to each other. -/
def pair : System (Fin 3) Bool where
  procs := [⟨64, some pairTable⟩]
  filehead := [0, 1, 2]
  count := fun _ ↦ 1
  msgcount := fun _ ↦ 0
  socketOf := fun f ↦ if f = 0 then some false else if f = 1 then some true else none
  socks := [false, true]
  socket := fun x ↦ ⟨false, false, [], some (!x), none, 2048, 4096, 0, 0, ⟨0, 4112, 0, 8224, []⟩⟩
  unpRights := 0
  unpGcing := false

/-- A message with the descriptor 2. -/
def pairMessage : Control := ⟨16, 16, true, [2], by decide⟩

theorem pairTable_sound : pairTable.Sound := by
  have hlast : ∀ d : Fin 20, pairTable.opened d ≠ none → (d : ℕ) ≤ 2 := by decide
  have hfree : ∀ d : Fin 2, pairTable.opened d ≠ none := by decide
  exact ⟨rfl, Nat.le_refl 20, by decide,
    fun d hd ↦ hlast ⟨d, Kern.Descrip.Filedesc.opened_lt hd⟩ hd, fun d hd ↦ hfree ⟨d, hd⟩⟩

theorem pair_sound : Sound pair none where
  tables := by
    intro q hq fdp hfd
    cases List.mem_singleton.mp hq
    cases hfd
    exact pairTable_sound
  tally := ⟨by decide, by decide, by decide, by decide, by decide, by decide, by decide, nofun⟩
  rights := rfl
  whole := by decide
  shape := fun _ _ _ hrecord ↦ absurd hrecord List.not_mem_nil
  linked := ⟨by decide, by decide, fun _ _ _ _ _ _ ↦ List.not_mem_nil, by decide,
    fun _ _ _ hy ↦ absurd hy List.not_mem_nil, fun _ _ ↦ List.nodup_nil,
    fun _ _ _ _ _ _ hy ↦ absurd hy List.not_mem_nil, fun _ _ _ _ ↦ rfl⟩
  gcing := rfl

/-- A message that is delivered. -/
theorem pair_send_meets : (Event.send 0 false none [] pairMessage true).Meets pair := by
  intro lim fdp hp
  cases hp
  refine ⟨by decide, Or.inr (Or.inr ⟨?_, by decide⟩)⟩
  exact ⟨rfl, by decide, true, by decide, rfl, by decide⟩

/-- The rights of a message that is delivered. -/
theorem pair_send_accounted :
    ∃ s, pair.exec (.send 0 false none [] pairMessage true) = .ok (s, none) ∧ s.Accounted := by
  have hstart : Reach (fun s (e : Event (Fin 3) Bool) ↦ e.Meets s) pair := .start pair_sound rfl
  exact ⟨_, rfl, (rights_accounted
    (hstart.step (e := .send 0 false none [] pairMessage true) pair_send_meets rfl)).1⟩

/-- A message that finds no mbuf for the address leaves its references behind, and one that is
delivered to a process with free descriptors is discarded. -/
theorem rights_lost :
    ¬ (∀ s : System (Fin 3) Bool, Reach (fun _ _ ↦ True) s → s.Accounted) ∧
    ¬ ∀ s : System (Fin 3) Bool, Reach (fun _ _ ↦ True) s → ∀ p x controlp,
      ∃ s' r, s.exec (.receive p x controlp) = .ok (s', r) ∧ Received s s' p x r := by
  have hstart : Reach (fun _ (_ : Event (Fin 3) Bool) ↦ True) pair := .start pair_sound rfl
  constructor
  · intro h
    have hfailed := hstart.step (e := .send 0 false none [] pairMessage false) trivial rfl
    exact absurd ((h _ hfailed).1 2 (by decide)).1 (by decide)
  · intro h
    have hsent := hstart.step (e := .send 0 false none [] pairMessage true) trivial rfl
    obtain ⟨s', r, hexec, hreceived⟩ := h _ hsent 0 true true
    cases hexec
    obtain ⟨-, fdp', hprocs, hinstalled⟩ := hreceived 64 pairTable rfl
    cases hprocs
    rw [if_pos (by decide)] at hinstalled
    obtain ⟨f, fd, -, hfree, hthis⟩ := hinstalled
    have hsame := congrFun hthis fd
    rw [Function.update_self, hfree] at hsame
    exact nomatch hsame

end Bsd386.Un
