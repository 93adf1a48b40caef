import Bsd386.Un.Rights.Close

/-!
# Sending and receiving rights

A message that is delivered adds its references to the counts and to a queue. One that is received
and discarded takes them away from both.
-/

namespace Bsd386.Un

open Kern (Fault)
open Kern.Descrip (Filedesc Proc short short_eq uses_pos uses_set)

variable {F S : Type} [DecidableEq F] {s t : System F S} {x y : S} {n m : F → ℕ}

/-- What is left to show when files and queues have changed. -/
theorem Sound.assemble (hsound : Sound s none) (hprocs : t.procs = s.procs)
    (hsockOf : t.socketOf = s.socketOf) (hsocks : t.socks = s.socks)
    (hgcing : t.unpGcing = s.unpGcing)
    (hsub : t.filehead ⊆ s.filehead)
    (hsocket : ∀ z, (t.socket z).stream = (s.socket z).stream ∧
    (t.socket z).conn = (s.socket z).conn ∧
      (t.socket z).pending = (s.socket z).pending)
    (hshape : ∀ z ∈ s.socks, ∀ record ∈ (t.socket z).rcv.sbMb, Shape (s.socket z).stream record)
    (hwhole : none ∉ t.flying) (hright : t.unpRights = t.flying.length)
    (htally : Tally t (fun f ↦ t.uses f + t.inFlight f) t.inFlight none) : Sound t none := by
  obtain ⟨h₁, h₂, h₃, h₄, h₅, h₆, h₇, h₈⟩ := hsound.linked
  refine ⟨hprocs ▸ hsound.tables, htally, hright, hwhole, fun z hz record hrecord ↦ ?_,
    ⟨hsocks ▸ h₁, fun f hf z hz ↦ ?_, fun f hf z hz w hw ↦ ?_, fun f hf g hg z hz hz' ↦ ?_,
      fun z hz w hw ↦ ?_, fun z hz ↦ ?_, fun z hz z' hz' hne w hw ↦ ?_, fun z hz w hw ↦ ?_⟩,
    hgcing.trans hsound.gcing⟩
  · rw [(hsocket z).1]
    exact hshape z (hsocks ▸ hz) record hrecord
  · rw [hsocks]
    exact h₂ f (hsub hf) z (hsockOf ▸ hz)
  · rw [(hsocket w).2.2]
    exact h₃ f (hsub hf) z (hsockOf ▸ hz) w (hsocks ▸ hw)
  · exact h₄ f (hsub hf) g (hsub hg) z (hsockOf ▸ hz) (hsockOf ▸ hz')
  · rw [(hsocket z).2.2] at hw
    rw [hsocks]
    exact h₅ z (hsocks ▸ hz) w hw
  · rw [(hsocket z).2.2]
    exact h₆ z (hsocks ▸ hz)
  · rw [(hsocket z).2.2] at hw
    rw [(hsocket z').2.2]
    exact h₇ z (hsocks ▸ hz) z' (hsocks ▸ hz') hne w hw
  · rw [(hsocket z).2.1] at hw
    rw [(hsocket z).1, (hsocket w).1]
    exact h₈ z (hsocks ▸ hz) w hw

variable [DecidableEq S]

omit [DecidableEq F] in
/-- The messages when one socket changes. -/
theorem flying_changed (hnodup : s.socks.Nodup) (hsocks : t.socks = s.socks) (hx : x ∈ s.socks)
    (hother : ∀ z, z ≠ x → (t.socket z).rights = (s.socket z).rights) :
    t.flying.Perm ((t.socket x).rights ++ s.elsewhere x) := by
  rw [← elsewhere_congr hnodup hsocks hother]
  exact flying_perm (hsocks ▸ hx)

/-! ### Sending -/

omit [DecidableEq S] in
/-- Each file in a message gets one more reference. -/
theorem internalizeLoop_spec {files : List F} (htally : Tally s n m none)
    (hopen : ∀ f ∈ files, f ∈ s.filehead) (hsmall : ∀ f, n f + files.count f < 2 ^ 15) :
    ∃ count msgcount, files.foldlM (fun s fp ↦ do
        s.file fp
        return (s.setCount fp (short (s.count fp + 1))).addMsg fp 1) s =
          (.ok (s.withFiles s.filehead count msgcount (s.unpRights + files.length)) :
            Except Fault (System F S)) ∧
      Tally (s.withFiles s.filehead count msgcount (s.unpRights + files.length))
        (fun f ↦ n f + files.count f) (fun f ↦ m f + files.count f) none := by
  induction files generalizing s n m with
  | nil =>
    refine ⟨s.count, s.msgcount, ?_, ?_⟩
    · rw [List.foldlM_nil, List.length_nil, System.withFiles]
      simp
      rfl
    · simpa [System.withFiles] using htally
  | cons fp files ih =>
    have hmem := hopen fp List.mem_cons_self
    obtain ⟨hnodup, hcount, hmsg, hsml, hle, hmm, hpos, -⟩ := htally
    have hcons : ∀ f, (fp :: files).count f = (if f = fp then 1 else 0) + files.count f := by
      intro f
      rw [List.count_cons, Nat.add_comm]
      simp only [beq_iff_eq]
      rw [if_congr eq_comm rfl rfl]
    have hbound := hsmall fp
    rw [hcons, if_pos rfl] at hbound
    have hlefp := hle fp
    have hcountfp := hcount fp hmem
    have hmsgfp := hmsg fp hmem
    have hnext : short (s.count fp + 1) = s.count fp + 1 := short_eq (by omega) (by omega)
    have hnextMsg : short (s.msgcount fp + 1) = s.msgcount fp + 1 := short_eq (by omega) (by omega)
    have hstep : (s.setCount fp (short (s.count fp + 1))).addMsg fp 1 =
        s.withFiles s.filehead (Function.update s.count fp (s.count fp + 1))
          (Function.update s.msgcount fp (s.msgcount fp + 1)) (s.unpRights + 1) := by
      rw [System.addMsg, System.setCount, hnext]
      simp only [hnextMsg]
      rfl
    have htally₁ : Tally (s.withFiles s.filehead (Function.update s.count fp (s.count fp + 1))
        (Function.update s.msgcount fp (s.msgcount fp + 1)) (s.unpRights + 1))
          (fun f ↦ n f + if f = fp then 1 else 0) (fun f ↦ m f + if f = fp then 1 else 0) none := by
      refine ⟨hnodup, fun f hf ↦ ?_, fun f hf ↦ ?_, fun f ↦ ?_, fun f ↦ ?_, fun f hne ↦ ?_,
        fun f hf hzero ↦ hpos f hf (by omega), fun f hf ↦ absurd hf (Option.some_ne_none f).symm⟩
      · change Function.update s.count fp (s.count fp + 1) f = _
        have hold := hcount f hf
        by_cases heq : f = fp
        · rw [heq, Function.update_self, if_pos rfl]
          omega
        · rw [Function.update_of_ne heq, if_neg heq]
          exact hold
      · change Function.update s.msgcount fp (s.msgcount fp + 1) f = _
        have hold := hmsg f hf
        by_cases heq : f = fp
        · rw [heq, Function.update_self, if_pos rfl]
          omega
        · rw [Function.update_of_ne heq, if_neg heq]
          exact hold
      · have hthis := hsmall f
        rw [hcons] at hthis
        omega
      · have hthis := hle f
        omega
      · by_cases heq : f = fp
        · rw [heq]
          exact hmem
        · rw [if_neg heq] at hne
          exact hmm f hne
    obtain ⟨count, msgcount, hrun, htally'⟩ := ih htally₁
      (fun f hf ↦ hopen f (List.mem_cons_of_mem fp hf)) fun f ↦ by
        have hthis := hsmall f
        rw [hcons, ← Nat.add_assoc] at hthis
        exact hthis
    have hlength : s.unpRights + 1 + (files.length : ℤ) =
        s.unpRights + ((fp :: files).length : ℕ) := by
      rw [List.length_cons]
      omega
    refine ⟨count, msgcount, ?_, ?_⟩
    · rw [List.foldlM_cons, file_eq hmem, ok_bind, hstep, ← hlength]
      exact hrun
    · rw [← hlength]
      refine Tally.congr htally' (fun f ↦ ?_) fun f ↦ ?_
      · rw [hcons, Nat.add_assoc]
      · rw [hcons, Nat.add_assoc]

theorem mapM_eq_none {A B : Type} {f : A → Option B} {l : List A} :
    l.mapM f = none ↔ ∃ a ∈ l, f a = none := by
  induction l with
  | nil => simp
  | cons a l ih =>
    rw [List.mapM_cons]
    cases ha : f a with
    | none => simp [ha]
    | some b =>
      cases hl : l.mapM f with
      | none =>
        obtain ⟨c, hc, hnone⟩ := ih.mp hl
        simp only [Option.bind_eq_bind, Option.bind_some, Option.bind_none, true_iff]
        exact ⟨c, List.mem_cons_of_mem a hc, hnone⟩
      | some bs =>
        simp only [Option.bind_eq_bind, Option.bind_some, Option.pure_def, reduceCtorEq, false_iff]
        rintro ⟨c, hc, hnone⟩
        rcases List.mem_cons.mp hc with rfl | hmem
        · rw [ha] at hnone
          exact nomatch hnone
        · rw [ih.mpr ⟨c, hmem, hnone⟩] at hl
          exact nomatch hl

theorem mapM_eq_some {A B : Type} {f : A → Option B} {l : List A} {r : List B}
    (hrun : l.mapM f = some r) : r.length = l.length ∧ ∀ b ∈ r, ∃ a ∈ l, f a = some b := by
  induction l generalizing r with
  | nil =>
    cases hrun
    exact ⟨rfl, nofun⟩
  | cons a l ih =>
    rw [List.mapM_cons] at hrun
    cases ha : f a with
    | none =>
      rw [ha] at hrun
      exact nomatch hrun
    | some b =>
      cases hl : l.mapM f with
      | none =>
        rw [ha, hl] at hrun
        exact nomatch hrun
      | some bs =>
        rw [ha, hl] at hrun
        cases hrun
        obtain ⟨hlength, hmem⟩ := ih hl
        refine ⟨congrArg (· + 1) hlength, fun c hc ↦ ?_⟩
        rcases List.mem_cons.mp hc with rfl | hrest
        · exact ⟨a, List.mem_cons_self, ha⟩
        · obtain ⟨d, hd, heq⟩ := hmem c hrest
          exact ⟨d, List.mem_cons_of_mem a hd, heq⟩

omit [DecidableEq S] in
/-- A message that is refused changes nothing. -/
theorem unpInternalize_refused {control : Control} {fdp : Filedesc F}
    (hrefused : Refused control fdp) :
    ∃ e, System.unpInternalize control fdp s = .ok (s, .error e) := by
  rw [System.unpInternalize]
  by_cases hheader : control.isRights = false ∨ control.cmsgLen ≠ control.mLen
  · exact ⟨.einval, if_pos hheader⟩
  · rw [if_neg hheader]
    obtain ⟨fd, hfd, hnone⟩ := (or_assoc.mpr hrefused).resolve_left hheader
    have hmap : (control.fds.mapM fun fd ↦ (fdp.opened fd).map Prod.fst) = none := by
      refine mapM_eq_none.mpr ⟨fd, hfd, ?_⟩
      rw [hnone, Option.map_none]
    rw [hmap]
    exact ⟨.ebadf, rfl⟩

omit [DecidableEq S] in
/-- The references of a message are counted. -/
theorem unpInternalize_spec {control : Control} {p : ℕ} {lim : ℤ} {fdp : Filedesc F}
    (hsound : Sound s none) (hp : s.procs[p]? = some ⟨lim, some fdp⟩)
    (hrefused : ¬Refused control fdp)
    (hsmall : control.fds = [] ∨ ∀ f, s.uses f + s.inFlight f + control.fds.length < 2 ^ 15) :
    ∃ files count msgcount, files.length = control.fds.length ∧
      System.unpInternalize control fdp s =
        .ok (s.withFiles s.filehead count msgcount (s.unpRights + files.length), .ok files) ∧
      Tally (s.withFiles s.filehead count msgcount (s.unpRights + files.length))
        (fun f ↦ s.uses f + s.inFlight f + files.count f) (fun f ↦ s.inFlight f + files.count f)
          none := by
  have hheader : ¬(control.isRights = false ∨ control.cmsgLen ≠ control.mLen) := fun h ↦
    hrefused (or_assoc.mp (Or.inl h))
  have hopen : ¬∃ fd ∈ control.fds, fdp.opened fd = none := fun h ↦ hrefused (Or.inr (Or.inr h))
  rw [System.unpInternalize, if_neg hheader]
  cases hmap : control.fds.mapM fun fd ↦ (fdp.opened fd).map Prod.fst with
  | none =>
    obtain ⟨fd, hfd, hnone⟩ := mapM_eq_none.mp hmap
    exact absurd ⟨fd, hfd, Option.map_eq_none_iff.mp hnone⟩ hopen
  | some files =>
    obtain ⟨hlength, hfiles⟩ := mapM_eq_some hmap
    have hmem : ∀ f ∈ files, f ∈ s.filehead := by
      intro f hf
      obtain ⟨fd, -, hfd⟩ := hfiles f hf
      obtain ⟨⟨fp, flags⟩, hentry, rfl⟩ := Option.map_eq_some_iff.mp hfd
      obtain ⟨others, hall, -⟩ := uses_set hp
      have hpos := uses_pos hentry
      have hthis : s.uses fp = fdp.uses fp + others fp := hall fp
      exact hsound.tally.mem fp (by omega)
    have hbound : ∀ f, s.uses f + s.inFlight f + files.count f < 2 ^ 15 := by
      intro f
      have hle := List.count_le_length (a := f) (l := files)
      rcases hsmall with hnil | hall
      · have hthis := hsound.tally.small f
        rw [hnil, List.length_nil] at hlength
        omega
      · have hthis := hall f
        omega
    obtain ⟨count, msgcount, hrun, htally⟩ := internalizeLoop_spec hsound.tally hmem hbound
    refine ⟨files, count, msgcount, hlength, ?_, htally⟩
    dsimp only
    rw [hrun]
    rfl

/-- A message is put behind the others at a socket. -/
theorem Sound.delivered (files : List F) (records : List (Chain F)) (hsound : Sound s none)
    (hy : y ∈ s.socks) (hprocs : t.procs = s.procs) (hsockOf : t.socketOf = s.socketOf)
    (hsocks : t.socks = s.socks) (hgcing : t.unpGcing = s.unpGcing)
    (hlist : t.filehead = s.filehead)
    (hsocket : ∀ z, (t.socket z).stream = (s.socket z).stream ∧
    (t.socket z).conn = (s.socket z).conn ∧
      (t.socket z).pending = (s.socket z).pending)
    (hother : ∀ z, z ≠ y → (t.socket z).rcv.sbMb = (s.socket z).rcv.sbMb)
    (hqueue : (t.socket y).rcv.sbMb = (s.socket y).rcv.sbMb ++ records)
    (hshape : ∀ record ∈ records, Shape (s.socket y).stream record)
    (hfiles : records.flatten.flatMap Mbuf.rights = files.map some)
    (hright : t.unpRights = s.unpRights + files.length)
    (htally : Tally t (fun f ↦ s.uses f + s.inFlight f + files.count f)
      (fun f ↦ s.inFlight f + files.count f) none) : Sound t none := by
  have hrights : (t.socket y).rights = (s.socket y).rights ++ files.map some := by
    rw [Socket.rights, Socket.rights, hqueue, List.flatten_append, List.flatMap_append, hfiles]
  have hperm : t.flying.Perm (s.flying ++ files.map some) := by
    have hchanged := flying_changed hsound.linked.nodup hsocks hy fun z hz ↦ by
      rw [Socket.rights, Socket.rights, hother z hz]
    rw [hrights, List.append_assoc] at hchanged
    refine hchanged.trans ?_
    have hswap : (files.map some ++ s.elsewhere y).Perm (s.elsewhere y ++ files.map some) :=
      List.perm_append_comm
    refine (hswap.append_left _).trans ?_
    rw [← List.append_assoc]
    exact (flying_perm hy).symm.append_right _
  have hin : ∀ f, t.inFlight f = s.inFlight f + files.count f := by
    intro f
    rw [System.inFlight, hperm.count_eq, List.count_append, count_map_some]
    rfl
  have huses : ∀ f, t.uses f = s.uses f := fun f ↦ by rw [System.uses, hprocs]; rfl
  refine hsound.assemble hprocs hsockOf hsocks hgcing (hlist ▸ List.Subset.refl _) hsocket
    (fun z hz record hrecord ↦ ?_) ?_ ?_ (htally.congr (fun f ↦ ?_) hin)
  · by_cases hzy : z = y
    · subst hzy
      rw [hqueue] at hrecord
      rcases List.mem_append.mp hrecord with hold | hnew
      · exact hsound.shape z hz record hold
      · exact hshape record hnew
    · rw [hother z hzy] at hrecord
      exact hsound.shape z hz record hrecord
  · rw [hperm.mem_iff, List.mem_append]
    rintro (hold | hnew)
    · exact hsound.whole hold
    · obtain ⟨f, -, hf⟩ := List.mem_map.mp hnew
      cases hf
  · rw [hright, hperm.length_eq, List.length_append, List.length_map, hsound.rights]
    omega
  · rw [huses, hin, Nat.add_assoc]

omit [DecidableEq F] in
theorem dataChain_not_control (d : List (ℕ × ℤ)) : ∀ m ∈ (dataChain d : Chain F),
    m.isControl = false := by
  intro m hm
  obtain ⟨-, -, rfl⟩ := List.mem_map.mp hm
  rfl

omit [DecidableEq F] in
/-- The record that a message makes. -/
theorem message_shape (address : Chain F) (control : Control) (files : List F) (d : List (ℕ × ℤ))
    (haddress : ∀ m ∈ address, m.isControl = false) (stream : Bool)
    (hlength : address.length = if stream then 0 else 1) :
    Shape stream (address ++ (control.message files ++ dataChain d)) ∧
      [address ++ (control.message files ++ dataChain d)].flatten.flatMap Mbuf.rights =
        files.map some := by
  constructor
  · refine ⟨address, control.message files, dataChain d, (List.append_assoc ..).symm, hlength,
      Nat.le_refl 1, haddress, fun m hm ↦ ?_, dataChain_not_control d⟩
    rw [List.mem_singleton.mp hm]
    rfl
  · rw [List.flatten_singleton, List.flatMap_append, List.flatMap_append,
      flatMap_rights_of_not_control haddress,
      flatMap_rights_of_not_control (dataChain_not_control d), List.append_nil, List.nil_append]
    exact List.append_nil _

omit [DecidableEq F] [DecidableEq S] in
theorem chainLen_message (control : Control) (files : List F) :
    chainLen (control.message files) = control.mLen := Nat.add_zero _

/-- What a message is sent from: the state in which its references are counted. -/
structure Counted (s : System F S) (files : List F) (t : System F S) : Prop where
  procs : t.procs = s.procs
  socketOf : t.socketOf = s.socketOf
  socks : t.socks = s.socks
  socket : t.socket = s.socket
  gcing : t.unpGcing = s.unpGcing
  filehead : t.filehead = s.filehead
  rights : t.unpRights = s.unpRights + files.length
  tally : Tally t (fun f ↦ s.uses f + s.inFlight f + files.count f)
    (fun f ↦ s.inFlight f + files.count f) none

omit [DecidableEq S] in
theorem Counted.setSocket {files : List F} (hcounted : Counted s files t)
    (socket' : S → Socket F S) :
    Tally { t with socket := socket' } (fun f ↦ s.uses f + s.inFlight f + files.count f)
      (fun f ↦ s.inFlight f + files.count f) none := by
  obtain ⟨h₁, h₂, h₃, h₄, h₅, h₆, h₇, h₈⟩ := hcounted.tally
  exact ⟨h₁, h₂, h₃, h₄, h₅, h₆, h₇, h₈⟩

/-- A message without rights may fail. -/
theorem Sound.undelivered (hsound : Sound s none) (hcounted : Counted s [] t)
    (hx : x ∈ s.socks) (socket' : S → Socket F S)
    (hsocket : ∀ z, (socket' z).stream = (s.socket z).stream ∧
    (socket' z).conn = (s.socket z).conn ∧
      (socket' z).pending = (s.socket z).pending ∧ (socket' z).rcv.sbMb = (s.socket z).rcv.sbMb) :
    Sound { t with socket := socket' } none := by
  refine hsound.delivered [] [] hx hcounted.procs hcounted.socketOf
    hcounted.socks hcounted.gcing hcounted.filehead
    (fun z ↦ ⟨(hsocket z).1, (hsocket z).2.1, (hsocket z).2.2.1⟩) (fun z _ ↦ (hsocket z).2.2.2)
    ?_ nofun rfl hcounted.rights (hcounted.setSocket socket')
  rw [List.append_nil]
  exact (hsocket x).2.2.2

omit [DecidableEq S] in
/-- Datagrams go to datagram sockets. -/
theorem Sound.target_stream {nam : Option (Except Errno S)} (hsound : Sound s none)
    (hx : x ∈ s.socks)
    (hstream : (s.socket x).stream = false) (hfound : s.target nam (s.socket x).conn = .ok y) :
    (s.socket y).stream = false := by
  rw [System.target.eq_def] at hfound
  split at hfound
  · exact nomatch hfound
  · exact nomatch hfound
  · split_ifs at hfound with hw
    cases hfound
    exact Bool.eq_false_iff.mpr hw
  · exact nomatch hfound
  · next hconn =>
    cases hfound
    exact (hsound.linked.typed x hx y hconn).trans hstream

/-- Sending on a datagram socket. -/
theorem Sound.sendDgram {files : List F} {nam : Option (Except Errno S)} {d : List (ℕ × ℤ)}
    {control : Control} {fresh : Bool} {s' : System F S} {r : Option Errno} (hsound : Sound s none)
    (hcounted : Counted s files t) (hx : x ∈ s.socks) (hstream : (s.socket x).stream = false)
    (hdelivers : files = [] ∨ s.Delivers x nam d control fresh)
    (hrun : System.sendDgram x nam (dataChain d) (control.message files) fresh t = .ok (s', r)) :
    Sound s' none := by
  have hsame : ∀ e, files = [] →
      (.ok (t, e) : Except Fault (System F S × Option Errno)) = .ok (s', r) → Sound s' none := by
    intro e hnil heq
    cases heq
    subst hnil
    have hthis := hsound.undelivered hcounted hx t.socket fun z ↦ by
      rw [hcounted.socket]
      exact ⟨rfl, rfl, rfl, rfl⟩
    exact hthis
  have hsockx : t.sock x = .ok (s.socket x) := by
    rw [System.sock, hcounted.socks, if_pos hx, hcounted.socket]
  rw [System.sendDgram, hsockx, ok_bind] at hrun
  have htarget : t.target nam (s.socket x).conn = s.target nam (s.socket x).conn := by
    rw [System.target.eq_def, System.target.eq_def, hcounted.socket]
  rw [htarget] at hrun
  cases hfound : s.target nam (s.socket x).conn with
  | error e =>
    rw [hfound] at hrun
    refine hsame (some e) ?_ hrun
    rcases hdelivers with hnil | hdelivers
    · exact hnil
    · rw [System.Delivers, hstream] at hdelivers
      obtain ⟨-, -, y, -, htarget, -⟩ := hdelivers
      rw [hfound] at htarget
      exact nomatch htarget
  | ok y =>
    have hdgram := hsound.target_stream hx hstream hfound
    rw [hfound] at hrun
    dsimp only at hrun
    by_cases hy : y ∈ s.socks
    · have hsocky : t.sock y = .ok (s.socket y) := by
        rw [System.sock, hcounted.socks, if_pos hy, hcounted.socket]
      rw [hsocky, ok_bind, Sockbuf.sbappendaddr, chainLen_message] at hrun
      split_ifs at hrun with hspace
      · refine hsame (some .enobufs) ?_ hrun
        rcases hdelivers with hnil | hdelivers
        · exact hnil
        · rw [System.Delivers, hstream] at hdelivers
          obtain ⟨hfresh, haddr, y', -, htarget, hroom⟩ := hdelivers
          cases hfound.symm.trans htarget
          rcases hspace with hless | hlong | hnone
          · exact absurd hless (Int.not_lt.mpr hroom)
          · exact absurd hlong (Nat.not_lt.mpr haddr)
          · rw [hfresh] at hnone
            exact nomatch hnone
      · cases hrun
        obtain ⟨hshape, hrights⟩ := message_shape
          [(⟨(s.socket x).addr.getD 16, 128, .soname⟩ : Mbuf F)] control files d
          (List.forall_mem_singleton.mpr rfl) false rfl
        rw [System.setSock]
        refine hsound.delivered _ _ hy hcounted.procs hcounted.socketOf hcounted.socks
          hcounted.gcing
          hcounted.filehead (fun z ↦ ?_) (fun z hz ↦ ?_) ?_
          (List.forall_mem_singleton.mpr (hdgram ▸ hshape)) hrights hcounted.rights
          (hcounted.setSocket _)
        · dsimp only
          by_cases hz : z = y
          · rw [hz, Function.update_self]
            exact ⟨rfl, rfl, rfl⟩
          · rw [Function.update_of_ne hz, hcounted.socket]
            exact ⟨rfl, rfl, rfl⟩
        · dsimp only
          rw [Function.update_of_ne hz, hcounted.socket]
        · dsimp only
          rw [Function.update_self]
          rfl
    · have hsocky : t.sock y = .error .wildPointer := by
        rw [System.sock, hcounted.socks, if_neg hy]
      rw [hsocky] at hrun
      exact nomatch hrun

omit [DecidableEq F] in
/-- The receiver, whose buffer changes, and the sender, whose limits change. -/
theorem backpressure_socket (socket : S → Socket F S) (x y : S) (so : Socket F S) (a b : ℤ)
    (hstream : so.stream = (socket y).stream) (hconn : so.conn = (socket y).conn)
    (hpending : so.pending = (socket y).pending) (z : S) :
    ((Function.update (Function.update socket y so) x
      { Function.update socket y so x with sndMbmax := a, sndHiwat := b }) z).stream =
        (socket z).stream ∧
    ((Function.update (Function.update socket y so) x
      { Function.update socket y so x with sndMbmax := a, sndHiwat := b }) z).conn =
        (socket z).conn ∧
    ((Function.update (Function.update socket y so) x
      { Function.update socket y so x with sndMbmax := a, sndHiwat := b }) z).pending =
        (socket z).pending ∧
    ((Function.update (Function.update socket y so) x
      { Function.update socket y so x with sndMbmax := a, sndHiwat := b }) z).rcv =
        if z = y then so.rcv else (socket z).rcv := by
  have hinner : (Function.update socket y so z).stream = (socket z).stream ∧
      (Function.update socket y so z).conn = (socket z).conn ∧
      (Function.update socket y so z).pending = (socket z).pending ∧
      (Function.update socket y so z).rcv = if z = y then so.rcv else (socket z).rcv := by
    by_cases hz : z = y
    · rw [hz, Function.update_self, if_pos rfl]
      exact ⟨hstream, hconn, hpending, rfl⟩
    · rw [Function.update_of_ne hz, if_neg hz]
      exact ⟨rfl, rfl, rfl, rfl⟩
  by_cases hz : z = x
  · subst hz
    rw [Function.update_self]
    exact hinner
  · rw [Function.update_of_ne hz]
    exact hinner

/-- Sending on a stream socket. -/
theorem Sound.sendStream {files : List F} {nam : Option (Except Errno S)} {d : List (ℕ × ℤ)}
    {control : Control} {fresh : Bool} {s' : System F S} {r : Option Errno} (hsound : Sound s none)
    (hcounted : Counted s files t) (hx : x ∈ s.socks) (hstream : (s.socket x).stream = true)
    (hdelivers : files = [] ∨ s.Delivers x nam d control fresh)
    (hrun : System.sendStream x (dataChain d) (control.message files) t = .ok (s', r)) :
    Sound s' none := by
  have hsockx : t.sock x = .ok (s.socket x) := by
    rw [System.sock, hcounted.socks, if_pos hx, hcounted.socket]
  rw [System.sendStream, hsockx, ok_bind] at hrun
  dsimp only at hrun
  have hopen : files = [] ∨ (s.socket x).cantsendmore = false ∧ ∃ y ∈ s.socks,
      (s.socket x).conn = some y ∧
        (chainLen (dataChain d : Chain F) + control.mLen : ℤ) ≤ (s.socket y).rcv.sbspace := by
    rw [System.Delivers, hstream] at hdelivers
    exact hdelivers
  by_cases hcant : (s.socket x).cantsendmore = true
  · rw [if_pos hcant] at hrun
    cases hrun
    rcases hopen with rfl | ⟨hno, -⟩
    · have hthis := hsound.undelivered hcounted hx t.socket fun z ↦ by
        rw [hcounted.socket]
        exact ⟨rfl, rfl, rfl, rfl⟩
      exact hthis
    · rw [hcant] at hno
      exact nomatch hno
  rw [if_neg hcant] at hrun
  cases hconn : (s.socket x).conn with
  | none =>
    rw [hconn] at hrun
    exact nomatch hrun
  | some y =>
    rw [hconn] at hrun
    dsimp only at hrun
    by_cases hy : y ∈ s.socks
    · have hsocky : t.sock y = .ok (s.socket y) := by
        rw [System.sock, hcounted.socks, if_pos hy, hcounted.socket]
      have htyped := (hsound.linked.typed x hx y hconn).trans hstream
      rw [hsocky, ok_bind, Sockbuf.sbappendcontrol, chainLen_message] at hrun
      cases hrun
      obtain ⟨rcv, hrcv⟩ : ∃ rcv, rcv = ((if (s.socket y).rcv.sbspace <
          chainLen (dataChain d : Chain F) + control.mLen then none
        else some ((s.socket y).rcv.append (control.message files ++ dataChain d))).getD
          (s.socket y).rcv) := ⟨_, rfl⟩
      rw [← hrcv]
      have hsocket : ∀ a b c e z, _ := fun a b c e ↦ backpressure_socket s.socket x y
        { s.socket y with rcv := rcv, unpMbcnt := c, unpCc := e } a b rfl rfl rfl
      split_ifs at hrcv with hspace
      · have hnil : files = [] := by
          rcases hopen with hnil | ⟨-, y', -, hconn', hroom⟩
          · exact hnil
          · cases hconn.symm.trans hconn'
            exact absurd hspace (Int.not_lt.mpr hroom)
        subst hnil
        refine hsound.undelivered hcounted hx _ fun z ↦ ?_
        rw [System.setSock]
        dsimp only
        rw [hcounted.socket]
        obtain ⟨h₁, h₂, h₃, h₄⟩ := hsocket _ _ _ _ z
        refine ⟨h₁, h₂, h₃, (congrArg Sockbuf.sbMb h₄).trans ?_⟩
        rw [hrcv]
        dsimp only
        split_ifs with hz
        · rw [hz]
          rfl
        · rfl
      · obtain ⟨hshape, hrights⟩ :=
          message_shape [] control files d (List.forall_mem_nil _) true rfl
        rw [System.setSock, System.setSock]
        refine hsound.delivered _ _ hy hcounted.procs hcounted.socketOf hcounted.socks
          hcounted.gcing
          hcounted.filehead (fun z ↦ ?_) (fun z hz ↦ ?_) ?_
          (List.forall_mem_singleton.mpr (htyped ▸ hshape)) hrights hcounted.rights
          (hcounted.setSocket _)
        · dsimp only
          rw [hcounted.socket]
          obtain ⟨h₁, h₂, h₃, -⟩ := hsocket _ _ _ _ z
          exact ⟨h₁, h₂, h₃⟩
        · dsimp only
          rw [hcounted.socket]
          obtain ⟨-, -, -, h₄⟩ := hsocket _ _ _ _ z
          rw [if_neg hz] at h₄
          exact congrArg Sockbuf.sbMb h₄
        · dsimp only
          rw [hcounted.socket]
          obtain ⟨-, -, -, h₄⟩ := hsocket _ _ _ _ y
          rw [if_pos rfl] at h₄
          refine (congrArg Sockbuf.sbMb h₄).trans ?_
          rw [hrcv]
          rfl
    · have hsocky : t.sock y = .error .wildPointer := by
        rw [System.sock, hcounted.socks, if_neg hy]
      rw [hsocky] at hrun
      exact nomatch hrun

/-- A message is sent. -/
theorem Sound.exec_send {p : ℕ} {nam : Option (Except Errno S)} {d : List (ℕ × ℤ)}
    {control : Control}
    {fresh : Bool} {s' : System F S} {r : Option Errno} (hsound : Sound s none)
    (hmeets : (Event.send p x nam d control fresh).Meets s)
    (hexec : s.exec (.send p x nam d control fresh) = .ok (s', r)) : Sound s' none := by
  rw [System.exec] at hexec
  rcases hp : s.procs[p]? with _ | ⟨lim, _ | fdp⟩
  · rw [hp] at hexec
    cases hexec
    exact hsound
  · rw [hp] at hexec
    cases hexec
    exact hsound
  · rw [hp] at hexec
    dsimp only at hexec
    obtain ⟨hx, hcase⟩ := hmeets lim fdp hp
    rw [System.send] at hexec
    by_cases hrefused : Refused control fdp
    · obtain ⟨e, hrun⟩ := unpInternalize_refused (s := s) hrefused
      rw [hrun] at hexec
      cases hexec
      exact hsound
    have hcase' := hcase.resolve_left hrefused
    obtain ⟨files, count, msgcount, hlength, hrun, htally⟩ :=
      unpInternalize_spec hsound hp hrefused (hcase'.imp_right And.right)
    have hcounted : Counted s files
        (s.withFiles s.filehead count msgcount (s.unpRights + files.length)) :=
      ⟨rfl, rfl, rfl, rfl, rfl, rfl, rfl, htally⟩
    have hdelivers : files = [] ∨ s.Delivers x nam d control fresh := by
      rcases hcase' with hnil | hall
      · rw [hnil] at hlength
        exact Or.inl (List.length_eq_zero_iff.mp hlength)
      · exact Or.inr hall.1
    have hsockx : (s.withFiles s.filehead count msgcount (s.unpRights + files.length)).sock x =
        .ok (s.socket x) := if_pos hx
    rw [hrun, ok_bind] at hexec
    dsimp only at hexec
    rw [hsockx, ok_bind] at hexec
    cases hstream : (s.socket x).stream with
    | true =>
      rw [hstream, if_pos rfl] at hexec
      exact hsound.sendStream hcounted hx hstream hdelivers hexec
    | false =>
      rw [hstream, if_neg Bool.false_ne_true] at hexec
      exact hsound.sendDgram hcounted hx hstream hdelivers hexec

end Bsd386.Un
