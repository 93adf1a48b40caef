import Bsd386.Un.Rights.Transfer

/-!
# Receiving a message

The state that `soreceive` leaves differs from the one before in the buffer of the socket, and in
the files if rights were discarded.
-/

namespace Bsd386.Un

open Kern (Fault)
open Kern.Descrip (Filedesc)

variable {F S : Type} {s t : System F S} {x : S} {sb sb' : Sockbuf F} {n m : F → ℕ}

section Buffer

variable [DecidableEq S]

/-- The receive buffer of a socket changes. -/
def System.withRcv (s : System F S) (x : S) (sb : Sockbuf F) : System F S :=
  s.setSock x { s.socket x with rcv := sb }

theorem withRcv_socket : (s.withRcv x sb).socket x = { s.socket x with rcv := sb } :=
  Function.update_self ..

theorem withRcv_other {z : S} (hz : z ≠ x) : (s.withRcv x sb).socket z = s.socket z :=
  Function.update_of_ne hz ..

theorem withRcv_withRcv : (s.withRcv x sb).withRcv x sb' = s.withRcv x sb' := by
  rw [System.withRcv, withRcv_socket, System.setSock, System.withRcv, System.withRcv]
  simp only [System.setSock, Function.update_idem]

theorem withRcv_same : s.withRcv x (s.socket x).rcv = s := by
  have hsame : Function.update s.socket x (s.socket x) = s.socket :=
    Function.update_eq_self x s.socket
  rw [System.withRcv, System.setSock, hsame]

theorem withFiles_withRcv {filehead : List F} {count msgcount : F → ℤ} {unpRights : ℤ} :
    (s.withRcv x sb).withFiles filehead count msgcount unpRights =
      (s.withFiles filehead count msgcount unpRights).withRcv x sb := rfl

theorem takeMbuf_eq : System.takeMbuf x (s.withRcv x sb) =
    s.withRcv x { sb with sbMb := sb.sbMb.modifyHead List.tail } := by
  change (s.withRcv x sb).withRcv x { ((s.withRcv x sb).socket x).rcv with
    sbMb := ((s.withRcv x sb).socket x).rcv.sbMb.modifyHead List.tail } = _
  rw [withRcv_withRcv, withRcv_socket]

theorem freeMbuf_eq (m : Mbuf F) : System.freeMbuf x m (s.withRcv x sb) =
    s.withRcv x (sb.sbfree m) := by
  change (s.withRcv x sb).withRcv x (((s.withRcv x sb).socket x).rcv.sbfree m) = _
  rw [withRcv_withRcv, withRcv_socket]

/-- What is left when the first record has only data. -/
theorem closeRecord_eq {record : Chain F} {next : List (Chain F)}
    (hqueue : sb.sbMb = record :: next) :
    ∃ sb', System.closeRecord x (s.withRcv x sb) = s.withRcv x sb' ∧
      sb'.sbMb = if (s.socket x).stream = false ∨ record = [] then next else record :: next := by
  rw [System.closeRecord, withRcv_socket]
  simp only [hqueue]
  split_ifs with hgone
  · refine ⟨{ record.foldl Sockbuf.sbfree sb with sbMb := next }, ?_, rfl⟩
    rw [System.withRcv, System.withRcv, System.setSock, System.setSock]
    simp only [Function.update_idem]
    rfl
  · exact ⟨sb, rfl, hqueue⟩

end Buffer

variable [DecidableEq F] [DecidableEq S]

/-- The rest of a record is no control message. -/
theorem receiveControl_data {controlp : Bool} {lim : ℤ} {fdp : Filedesc F} {data : Chain F}
    (hdata : ∀ m ∈ data, m.isControl = false) :
    System.receiveControl x controlp lim data fdp s = .ok (fdp, s, none) := by
  cases data with
  | nil => rfl
  | cons m chain =>
    have hm := hdata m List.mem_cons_self
    rw [Mbuf.isControl] at hm
    rw [System.receiveControl]
    cases hcontents : m.contents with
    | data => rfl
    | soname => rfl
    | control rights =>
      rw [hcontents] at hm
      cases hm

/-- The rights of the first mbuf are discarded. -/
theorem discardRights_spec {files : List F} {chain : Chain F} {next : List (Chain F)} (done : ℕ)
    (sb : Sockbuf F) (m₀ : Mbuf F)
    (htally : Tally s (fun f ↦ n f + files.count f) (fun f ↦ m f + files.count f) none)
    (hlast : ∀ f ∈ files, n f = 0 → s.socketOf f = none)
    (hqueue : sb.sbMb = (m₀ :: chain) :: next) :
    ∃ filehead count msgcount m₁,
      System.discardRights x done (files.map some) (s.withRcv x sb) =
        .ok ((s.withFiles filehead count msgcount (s.unpRights - files.length)).withRcv x
          { sb with sbMb := (m₁ :: chain) :: next }) ∧
      Tally (s.withFiles filehead count msgcount (s.unpRights - files.length)) n m none ∧
      filehead ⊆ s.filehead := by
  induction files generalizing s sb done m₀ with
  | nil =>
    refine ⟨s.filehead, s.count, s.msgcount, m₀, ?_, ?_, List.Subset.refl _⟩
    · rw [List.map_nil, System.discardRights, ← hqueue, List.length_nil, System.withFiles]
      simp
    · simpa [System.withFiles] using htally
  | cons fp files ih =>
    have hcons : ∀ f, (fp :: files).count f = files.count f + if f = fp then 1 else 0 := by
      intro f
      rw [List.count_cons]
      simp only [beq_iff_eq]
      rw [if_congr eq_comm rfl rfl]
    have hfirst : Tally s (fun f ↦ n f + files.count f + if f = fp then 1 else 0)
        (fun f ↦ m f + files.count f + if f = fp then 1 else 0) none := by
      have hthis := htally
      simp only [hcons, ← Nat.add_assoc] at hthis
      exact hthis
    obtain ⟨k, hk⟩ : ∃ k, s.filehead.length = k + 1 := by
      have hmem := hfirst.mem fp (by simp)
      exact Nat.exists_eq_succ_of_ne_zero (Nat.ne_of_gt (List.length_pos_of_mem hmem))
    have hmoved : Tally (s.withRcv x sb) (fun f ↦ n f + files.count f + if f = fp then 1 else 0)
        (fun f ↦ m f + files.count f + if f = fp then 1 else 0) none := by
      obtain ⟨h₁, h₂, h₃, h₄, h₅, h₆, h₇, h₈⟩ := hfirst
      exact ⟨h₁, h₂, h₃, h₄, h₅, h₆, h₇, h₈⟩
    have hstep : System.unpDiscard System.close (some fp) (s.withRcv x sb) =
        .ok ((discarded s fp).withRcv x sb) := by
      have hthis : System.unpDiscard (System.closef (k + 1)) (some fp) (s.withRcv x sb) =
          .ok (discarded (s.withRcv x sb) fp) := unpDiscard_eq hmoved (by simp) fun hone ↦ by
        rw [if_pos rfl] at hone
        exact hlast fp List.mem_cons_self (by omega)
      rw [System.unpDiscard] at hthis ⊢
      have hclose : ∀ t : System F S, t.filehead = s.filehead →
          System.close fp t = System.closef (k + 1) fp t := by
        intro t ht
        rw [System.close, ht, hk]
      simp only [hclose _ (show ((s.withRcv x sb).addMsg fp (-1)).filehead = s.filehead from rfl)]
      exact hthis
    have hset : System.setRights x (List.replicate (done + 1) none ++ files.map some)
        ((discarded s fp).withRcv x sb) = (discarded s fp).withRcv x { sb with
          sbMb := ({ m₀ with
            contents := .control (List.replicate (done + 1) none ++ files.map some) } ::
            chain) :: next } := by
      rw [System.setRights, withRcv_socket]
      simp only [hqueue]
      rw [System.withRcv, System.withRcv, System.setSock, System.setSock]
      simp only [Function.update_idem]
      rfl
    obtain ⟨filehead, count, msgcount, m₁, hrun, htally', hsub⟩ := ih (done + 1)
      { sb with
        sbMb := ({ m₀ with
          contents := .control (List.replicate (done + 1) none ++ files.map some) } ::
          chain) :: next }
      { m₀ with contents := .control (List.replicate (done + 1) none ++ files.map some) }
      hfirst.discarded (fun f hf hzero ↦ hlast f (List.mem_cons_of_mem fp hf) hzero) rfl
    have hrights : (discarded s fp).unpRights - files.length =
        s.unpRights - ((fp :: files).length : ℕ) := by
      change s.unpRights - 1 - (files.length : ℤ) = s.unpRights - ((files.length + 1 : ℕ) : ℤ)
      omega
    rw [hrights] at hrun htally'
    refine ⟨filehead, count, msgcount, m₁, ?_, htally', fun f hf ↦ ?_⟩
    · rw [List.map_cons, System.discardRights, hstep, ok_bind, hset]
      exact hrun
    · have hthis := hsub hf
      rw [discarded] at hthis
      dsimp only at hthis
      split_ifs at hthis
      · exact List.mem_of_mem_erase hthis
      · exact hthis

/-- A message is out of the queue of a socket. -/
theorem Sound.received (files : List F) (hsound : Sound s none) (hx : x ∈ s.socks)
    (hprocs : t.procs = s.procs) (hsockOf : t.socketOf = s.socketOf) (hsocks : t.socks = s.socks)
    (hgcing : t.unpGcing = s.unpGcing) (hsub : t.filehead ⊆ s.filehead)
    (hother : ∀ z, z ≠ x → t.socket z = s.socket z)
    (hsocket : t.socket x = { s.socket x with rcv := (t.socket x).rcv })
    (hshape : ∀ record ∈ (t.socket x).rcv.sbMb, Shape (s.socket x).stream record)
    (hrights : (s.socket x).rights = files.map some ++ (t.socket x).rights)
    (hright : t.unpRights = s.unpRights - files.length)
    (htally : Tally t
      (fun f ↦ s.uses f + ((t.socket x).rights.count (some f) + (s.elsewhere x).count (some f)))
      (fun f ↦ (t.socket x).rights.count (some f) + (s.elsewhere x).count (some f)) none) :
    Sound t none ∧ ∀ f, t.inFlight f + files.count f = s.inFlight f := by
  have hperm := flying_changed hsound.linked.nodup hsocks hx fun z hz ↦ by rw [hother z hz]
  have hin : ∀ f, t.inFlight f =
      (t.socket x).rights.count (some f) + (s.elsewhere x).count (some f) := by
    intro f
    rw [System.inFlight, hperm.count_eq, List.count_append]
  have huses : ∀ f, t.uses f = s.uses f := fun f ↦ by rw [System.uses, hprocs]; rfl
  constructor
  · refine hsound.assemble hprocs hsockOf hsocks hgcing hsub (fun z ↦ ?_)
      (fun z hz record hrecord ↦ ?_)
      ?_ ?_ (htally.congr (fun f ↦ ?_) hin)
    · by_cases hz : z = x
      · rw [hz, hsocket]
        exact ⟨rfl, rfl, rfl⟩
      · rw [hother z hz]
        exact ⟨rfl, rfl, rfl⟩
    · by_cases hzx : z = x
      · rw [hzx] at hrecord ⊢
        exact hshape record hrecord
      · rw [hother z hzx] at hrecord
        exact hsound.shape z hz record hrecord
    · intro h
      apply hsound.whole
      rw [(flying_perm hx).mem_iff, hrights, List.append_assoc]
      exact List.mem_append_right _ (hperm.mem_iff.mp h)
    · have hlength := length_flying hx
      have hbefore := hsound.rights
      rw [hrights, List.length_append, List.length_map] at hlength
      rw [hright, hperm.length_eq, List.length_append]
      omega
    · rw [huses, hin]
  · intro f
    rw [hin f, inFlight_eq hx, hrights, List.count_append, count_map_some]
    omega

omit [DecidableEq F] [DecidableEq S] in
theorem isControl_iff {m : Mbuf F} : m.isControl = true ↔
    ∃ rights, m.contents = .control rights := by
  rw [Mbuf.isControl]
  cases m.contents with
  | data => simp
  | soname => simp
  | control rights => simp

/-- The control message at the front of the first record is taken out of it. -/
theorem receiveControl_spec {files : List F} (controlp : Bool) (lim : ℤ) (fdp : Filedesc F)
    {control data : Chain F} {next : List (Chain F)} (sb : Sockbuf F)
    (htally : Tally s (fun f ↦ n f + files.count f) (fun f ↦ m f + files.count f) none)
    (hlength : control.length ≤ 1) (hcontrol : ∀ m ∈ control, m.isControl = true)
    (hdata : ∀ m ∈ data, m.isControl = false) (hqueue : sb.sbMb = (control ++ data) :: next)
    (hfiles : control.flatMap Mbuf.rights = files.map some)
    (hcase : files = [] ∨ controlp = true ∧ fdavail lim fdp files.length = true ∧
      ∀ f ∈ files, n f = 0 → s.socketOf f = none) :
    ∃ filehead count msgcount sb' e,
      System.receiveControl x controlp lim (control ++ data) fdp (s.withRcv x sb) =
        .ok (fdp, (s.withFiles filehead count msgcount (s.unpRights - files.length)).withRcv x
          sb', e) ∧
      Tally (s.withFiles filehead count msgcount (s.unpRights - files.length)) n m none ∧
      filehead ⊆ s.filehead ∧ sb'.sbMb = data :: next ∧ (files ≠ [] → e = some .emsgsize) := by
  -- Without rights the files stay as they are.
  have hsame : files = [] → s.withFiles s.filehead s.count s.msgcount (s.unpRights - files.length) =
    s := by
    rintro rfl
    rw [System.withFiles, List.length_nil]
    simp
  rcases control with _ | ⟨m₀, _ | ⟨m₁, control⟩⟩
  · have hnil : files = [] := List.map_eq_nil_iff.mp hfiles.symm
    refine ⟨s.filehead, s.count, s.msgcount, sb, none, ?_, ?_, List.Subset.refl _, hqueue,
      fun hne ↦ absurd hnil hne⟩
    · rw [hsame hnil]
      exact receiveControl_data hdata
    · rw [hsame hnil]
      simpa [hnil] using htally
  · obtain ⟨rights, hcontents⟩ := isControl_iff.mp (hcontrol m₀ List.mem_cons_self)
    have hrights : rights = files.map some := by
      rw [List.flatMap_singleton, Mbuf.rights, hcontents] at hfiles
      exact hfiles
    have hqueue' : (sb.sbfree m₀).sbMb = (m₀ :: data) :: next := hqueue
    have htake : System.takeMbuf x (s.withRcv x (sb.sbfree m₀)) =
        s.withRcv x { sb.sbfree m₀ with sbMb := data :: next } := by
      rw [takeMbuf_eq, hqueue']
      rfl
    have hlen : rights.length = files.length := by rw [hrights, List.length_map]
    rw [List.singleton_append, System.receiveControl, hcontents]
    dsimp only
    rw [freeMbuf_eq]
    by_cases hnil : files = []
    · have hempty : rights = [] := by rw [hrights, hnil, List.map_nil]
      have hdone : ∀ left : Sockbuf F, left.sbMb = data :: next → ∀ e,
          ∃ filehead count msgcount sb' e',
            (.ok (fdp, s.withRcv x left, e) : Except Fault
              (Filedesc F × System F S × Option Errno)) =
              .ok (fdp, (s.withFiles filehead count msgcount
                (s.unpRights - files.length)).withRcv x sb', e') ∧
            Tally (s.withFiles filehead count msgcount (s.unpRights - files.length)) n m none ∧
            filehead ⊆ s.filehead ∧ sb'.sbMb = data :: next ∧
            (files ≠ [] → e' = some .emsgsize) := by
        intro left hleft e
        refine ⟨s.filehead, s.count, s.msgcount, left, e, ?_, ?_, List.Subset.refl _, hleft,
          fun hne ↦ absurd hnil hne⟩
        · rw [hsame hnil]
        · rw [hsame hnil]
          simpa [hnil] using htally
      cases controlp with
      | false =>
        rw [if_neg Bool.false_ne_true, htake, receiveControl_data hdata]
        exact hdone { sb.sbfree m₀ with sbMb := data :: next } rfl none
      | true =>
        rw [if_pos rfl, System.unpExternalize, hempty]
        by_cases havail : fdavail lim fdp (([] : List (Option F)).length : ℤ) = true
        · rw [if_pos havail, System.discardRights, ok_bind]
          change (∃ filehead count msgcount sb' e',
            (.ok (fdp, System.takeMbuf x (s.withRcv x (sb.sbfree m₀)), some .emsgsize) :
              Except Fault (Filedesc F × System F S × Option Errno)) = _ ∧ _)
          rw [htake]
          exact hdone { sb.sbfree m₀ with sbMb := data :: next } rfl (some .emsgsize)
        · rw [if_neg havail, System.installRights, ok_bind]
          change (∃ filehead count msgcount sb' e',
            System.receiveControl x true lim data fdp
              (System.takeMbuf x (s.withRcv x (sb.sbfree m₀))) = _ ∧ _)
          rw [htake, receiveControl_data hdata]
          exact hdone { sb.sbfree m₀ with sbMb := data :: next } rfl none
    · obtain ⟨rfl, havail, hlast⟩ := hcase.resolve_left hnil
      obtain ⟨filehead, count, msgcount, m₁, hrun, htally', hsub⟩ :=
        discardRights_spec (x := x) 0 (sb.sbfree m₀) m₀ htally hlast hqueue'
      refine ⟨filehead, count, msgcount, { sb.sbfree m₀ with sbMb := data :: next },
        some .emsgsize, ?_,
        htally', hsub, rfl, fun _ ↦ rfl⟩
      rw [if_pos rfl, System.unpExternalize, hlen, if_pos havail, hrights, hrun, ok_bind]
      change (.ok (fdp, System.takeMbuf x _, some .emsgsize) :
        Except Fault (Filedesc F × System F S × Option Errno)) = _
      rw [takeMbuf_eq]
      rfl
  · simp at hlength

/-- `soreceive`, where it meets the condition. -/
theorem Sound.receive {controlp : Bool} {lim : ℤ} {fdp : Filedesc F} (hsound : Sound s none)
    (hx : x ∈ s.socks)
    (hcase : s.message x = [] ∨ controlp = true ∧ fdavail lim fdp (s.message x).length = true ∧
      ∀ f, s.count f = (s.message x).count (some f) → s.socketOf f = none) :
    ∃ t e, s.receive x controlp lim fdp = .ok (fdp, t, e) ∧ Sound t none ∧ t.procs = s.procs ∧
      (∀ f, t.inFlight f + (s.message x).count (some f) = s.inFlight f) ∧
      (s.message x ≠ [] → e = some .emsgsize) := by
  have hsockx : s.sock x = .ok (s.socket x) := if_pos hx
  cases hqueue : (s.socket x).rcv.sbMb with
  | nil =>
    have hnil : s.message x = [] := by
      rw [System.message, hqueue]
      rfl
    refine ⟨s, none, ?_, hsound, rfl, fun f ↦ ?_, fun hne ↦ absurd hnil hne⟩
    · rw [System.receive, hsockx, ok_bind, hqueue]
      rfl
    · rw [hnil]
      exact Nat.add_zero _
  | cons record next =>
    have hshape := hsound.shape x hx record (hqueue ▸ List.mem_cons_self)
    have hscan := hshape.scanRecord_eq
    obtain ⟨address, control, data, hrecord, haddress, hlength, hnot, hcontrol, hdata⟩ := hshape
    have hmessage : s.message x = control.flatMap Mbuf.rights := by
      rw [System.message, hqueue, List.headD_cons, hscan, hrecord, List.flatMap_append,
        List.flatMap_append, flatMap_rights_of_not_control hnot,
        flatMap_rights_of_not_control hdata,
        List.nil_append, List.append_nil]
    have hrights : (s.socket x).rights = s.message x ++ next.flatten.flatMap Mbuf.rights := by
      rw [Socket.rights, hqueue, List.flatten_cons, List.flatMap_append, ← hscan, System.message,
        hqueue,
        List.headD_cons]
    have hwhole : none ∉ s.message x := by
      intro h
      apply hsound.whole
      refine mem_flying.mpr ⟨x, hx, ?_⟩
      rw [hrights]
      exact List.mem_append_left _ h
    obtain ⟨files, hfiles⟩ := exists_map_some hwhole
    -- The address is taken off.
    obtain ⟨sb₁, hsb₁, hrun⟩ : ∃ sb₁ : Sockbuf F, sb₁.sbMb = (control ++ data) :: next ∧
        s.receive x controlp lim fdp =
          System.receiveControl x controlp lim (control ++ data) fdp (s.withRcv x sb₁) >>= fun r ↦
            .ok (r.1, System.closeRecord x r.2.1, r.2.2) := by
      rw [System.receive, hsockx, ok_bind, hqueue]
      dsimp only
      cases hstream : (s.socket x).stream with
      | true =>
        rw [hstream, if_pos rfl] at haddress
        rw [List.length_eq_zero_iff.mp haddress] at hrecord
        refine ⟨(s.socket x).rcv, by rw [hqueue, hrecord]; rfl, ?_⟩
        rw [withRcv_same, hrecord]
        rfl
      | false =>
        rw [hstream, if_neg Bool.false_ne_true] at haddress
        obtain ⟨a, rfl⟩ := List.length_eq_one_iff.mp haddress
        refine ⟨{ (s.socket x).rcv.sbfree a with sbMb := (control ++ data) :: next }, rfl, ?_⟩
        have htake : System.takeMbuf x (System.freeMbuf x a s) = s.withRcv x
            { (s.socket x).rcv.sbfree a with sbMb := (control ++ data) :: next } := by
          have hthis : System.takeMbuf x (s.withRcv x ((s.socket x).rcv.sbfree a)) = _ :=
            takeMbuf_eq
          rw [← freeMbuf_eq, withRcv_same] at hthis
          rw [hthis]
          change s.withRcv x { (s.socket x).rcv.sbfree a with
            sbMb := (s.socket x).rcv.sbMb.modifyHead List.tail } = _
          rw [hqueue, hrecord]
          rfl
        rw [hrecord, ← htake]
        rfl
    have hnext : (data :: next).flatten.flatMap Mbuf.rights = next.flatten.flatMap Mbuf.rights := by
      rw [List.flatten_cons, List.flatMap_append, flatMap_rights_of_not_control hdata,
        List.nil_append]
    -- The rights that stay in the queue, and those of the other sockets.
    obtain ⟨m, hm⟩ : ∃ m : F → ℕ, m = fun f ↦
        (next.flatten.flatMap Mbuf.rights).count (some f) + (s.elsewhere x).count (some f) :=
        ⟨_, rfl⟩
    have hin : ∀ f, s.inFlight f = m f + files.count f := by
      intro f
      rw [inFlight_eq hx, hrights, hfiles, List.count_append, count_map_some, hm]
      dsimp only
      omega
    have htally : Tally s (fun f ↦ (fun f ↦ s.uses f + m f) f + files.count f)
        (fun f ↦ m f + files.count f) none :=
      hsound.tally.congr (fun f ↦ by
        have hthis := hin f
        dsimp only
        omega) fun f ↦ (hin f).symm
    obtain ⟨filehead, count, msgcount, sb', e, hcontrol', htally', hsub, hsb', he⟩ :=
      receiveControl_spec (x := x) controlp lim fdp sb₁ htally hlength
        hcontrol hdata hsb₁ (hmessage ▸ hfiles) <| by
        refine hcase.imp (fun hnil ↦ ?_) fun h ↦ ⟨h.1, ?_, fun f hf hzero ↦ h.2.2 f ?_⟩
        · rw [hfiles] at hnil
          exact List.map_eq_nil_iff.mp hnil
        · have havail := h.2.1
          rwa [hfiles, List.length_map] at havail
        · have hmem : f ∈ s.filehead := hsound.tally.mem f (by
            have hpos := List.count_pos_iff.mpr hf
            have hthis := hin f
            omega)
          have hcount := hsound.tally.count f hmem
          have hthis := hin f
          rw [hfiles, count_map_some]
          omega
    obtain ⟨left, hleft, hleftMb⟩ :=
      closeRecord_eq (s := s.withFiles filehead count msgcount (s.unpRights - files.length))
        (x := x) hsb'
    obtain ⟨t, ht⟩ : ∃ t, t = (s.withFiles filehead count msgcount
      (s.unpRights - files.length)).withRcv x left := ⟨_, rfl⟩
    have hsocket : t.socket x = { s.socket x with rcv := left } := ht ▸ withRcv_socket
    have hrcv : (t.socket x).rcv = left := by rw [hsocket]
    have hleftRights : (t.socket x).rights = next.flatten.flatMap Mbuf.rights := by
      rw [Socket.rights, hrcv, hleftMb]
      split_ifs
      · rfl
      · exact hnext
    have hreceived := hsound.received (t := t) files hx (by rw [ht]; rfl) (by rw [ht]; rfl)
      (by rw [ht]; rfl) (by rw [ht]; rfl) (by rw [ht]; exact hsub)
      (fun z hz ↦ by rw [ht]; exact withRcv_other hz) (by rw [hsocket]) (fun record' hrecord' ↦ ?_)
      (by rw [hleftRights, hrights, hfiles]) (by rw [ht]; rfl) ?_
    · refine ⟨t, e, ?_, hreceived.1, by rw [ht]; rfl, fun f ↦ ?_, fun hne ↦ he fun hnil ↦ hne ?_⟩
      · rw [hrun, hcontrol', ok_bind]
        dsimp only
        rw [hleft, ht]
      · rw [hfiles, count_map_some]
        exact hreceived.2 f
      · rw [hfiles, hnil, List.map_nil]
    · rw [hrcv, hleftMb] at hrecord'
      have hold : ∀ r ∈ next, Shape (s.socket x).stream r := fun r hr ↦
        hsound.shape x hx r (hqueue ▸ List.mem_cons_of_mem record hr)
      split_ifs at hrecord' with hgone
      · exact hold record' hrecord'
      · rcases List.mem_cons.mp hrecord' with rfl | hr
        · have hstream : (s.socket x).stream = true := by
            cases hthis : (s.socket x).stream with
            | true => rfl
            | false => exact absurd (Or.inl hthis) hgone
          exact ⟨[], [], record', rfl, by rw [hstream]; rfl, Nat.zero_le 1,
            fun m hm ↦ absurd hm List.not_mem_nil, fun m hm ↦ absurd hm List.not_mem_nil, hdata⟩
        · exact hold record' hr
    · rw [hleftRights, ht]
      obtain ⟨h₁, h₂, h₃, h₄, h₅, h₆, h₇, h₈⟩ := htally'
      rw [hm] at h₂ h₃ h₄ h₅ h₆ h₇ h₈
      exact ⟨h₁, h₂, h₃, h₄, h₅, h₆, h₇, h₈⟩

end Bsd386.Un
