import Bsd386.Un.Rights.Runs

/-!
# Closing a socket

When the last descriptor of a socket is closed, the connections that wait at it are aborted and the
messages in its queue are disposed of. As long as what is in these messages has other references, or
is no socket and nothing else refers to it, all counts stay right.
-/

namespace Bsd386.Un

open Kern (Fault)
open Kern.Descrip (Filedesc Proc short short_eq uses_set uses_update names_some names_none)

variable {F S : Type} [DecidableEq F] {s s' : System F S} {closing : Option F} {x y : S} {fp : F}

/-! ### Changes that do not matter -/

omit [DecidableEq F] in
/-- Sockets change, but for their queues, and pending connections go. -/
theorem Linked.resock {socket' : S → Socket F S} (hlinked : Linked s)
    (hstream : ∀ z, (socket' z).stream = (s.socket z).stream)
    (hconn : ∀ z y, (socket' z).conn = some y → (s.socket z).conn = some y)
    (hpending : ∀ z ∈ s.socks, (socket' z).pending.Sublist (s.socket z).pending) :
    Linked { s with socket := socket' } where
  nodup := hlinked.nodup
  files := hlinked.files
  accepted f hf z hz y hy hmem := hlinked.accepted f hf z hz y hy ((hpending y hy).subset hmem)
  apart := hlinked.apart
  pending z hz y hy := hlinked.pending z hz y ((hpending z hz).subset hy)
  once z hz := (hlinked.once z hz).sublist (hpending z hz)
  disjoint z hz z' hz' hne y hy hy' :=
    hlinked.disjoint z hz z' hz' hne y ((hpending z hz).subset hy) ((hpending z' hz').subset hy')
  typed z hz y hy := by
    dsimp only at hy ⊢
    rw [hstream, hstream]
    exact hlinked.typed z hz y (hconn z y hy)

omit [DecidableEq F] in
theorem Tally.congr {n m n' m' : F → ℕ} (htally : Tally s n m closing) (hn : ∀ f, n' f = n f)
    (hm : ∀ f, m' f = m f) : Tally s n' m' closing := by
  have hn' : n' = n := funext hn
  have hm' : m' = m := funext hm
  rw [hn', hm']
  exact htally

theorem Sound.resock {socket' : S → Socket F S} (hsound : Sound s closing)
    (hrcv : ∀ z, (socket' z).rcv = (s.socket z).rcv)
    (hstream : ∀ z, (socket' z).stream = (s.socket z).stream)
    (hconn : ∀ z y, (socket' z).conn = some y → (s.socket z).conn = some y)
    (hpending : ∀ z ∈ s.socks, (socket' z).pending.Sublist (s.socket z).pending) :
    Sound { s with socket := socket' } closing := by
  have hrights : ∀ z, (socket' z).rights = (s.socket z).rights := by
    intro z
    rw [Socket.rights, Socket.rights, hrcv]
  have hflying : ({ s with socket := socket' } : System F S).flying = s.flying :=
    List.flatMap_congr fun z _ ↦ hrights z
  have hin : ∀ f, ({ s with socket := socket' } : System F S).inFlight f = s.inFlight f := by
    intro f
    rw [System.inFlight, hflying]
    rfl
  obtain ⟨htables, htally, hright, hwhole, hshape, hlinked, hgcing⟩ := hsound
  refine ⟨htables, ?_, ?_, ?_, fun z hz record hrecord ↦ ?_, hlinked.resock hstream hconn hpending,
    hgcing⟩
  · obtain ⟨hnodup, hcount, hmsg, hsmall, hle, hmem, hpos, hclosed⟩ := htally
    have hmoved : Tally { s with socket := socket' } (fun f ↦ s.uses f + s.inFlight f) s.inFlight
        closing := ⟨hnodup, hcount, hmsg, hsmall, hle, hmem, hpos, hclosed⟩
    refine hmoved.congr (fun f ↦ ?_) hin
    rw [hin]
    rfl
  · rw [hflying]
    exact hright
  · rw [hflying]
    exact hwhole
  · dsimp only at hrecord ⊢
    rw [hrcv] at hrecord
    rw [hstream]
    exact hshape z hz record hrecord

variable [DecidableEq S]

omit [DecidableEq F] in
/-- `unp_disconnect` leaves the queues and the pending connections. -/
theorem unpDisconnect_socket (x z : S) :
    ((System.unpDisconnect x s).socket z).rcv = (s.socket z).rcv ∧
      ((System.unpDisconnect x s).socket z).stream = (s.socket z).stream ∧
      ((System.unpDisconnect x s).socket z).pending = (s.socket z).pending := by
  rw [System.unpDisconnect]
  dsimp only
  split_ifs <;> exact ⟨rfl, rfl, rfl⟩

omit [DecidableEq F] in
theorem unpDisconnect_conn (x z y : S)
    (hconn : ((System.unpDisconnect x s).socket z).conn = some y) :
    (s.socket z).conn = some y := by
  rw [System.unpDisconnect] at hconn
  dsimp only at hconn
  split_ifs at hconn
  exact hconn

theorem Sound.unpDisconnect (hsound : Sound s closing) :
    Sound (System.unpDisconnect x s) closing := by
  refine hsound.resock (fun z ↦ ?_) (fun z ↦ ?_) (unpDisconnect_conn x) fun z _ ↦ ?_
  · exact (unpDisconnect_socket x z).1
  · exact (unpDisconnect_socket x z).2.1
  · have hpending : ((System.unpDisconnect x s).socket z).pending = (s.socket z).pending :=
      (unpDisconnect_socket x z).2.2
    exact hpending.symm ▸ List.Sublist.refl _

/-! ### Freeing a socket -/

/-- The messages at the other sockets when one is freed. -/
theorem sofree_spec {k : ℕ} (hsound : Sound s closing) (hy : y ∈ s.socks)
    (hlast : ∀ f, some f ∈ (s.socket y).rights → s.uses f + (s.elsewhere y).count (some f) = 0 →
      s.socketOf f = none)
    (hfuel : (s.socket y).rights ≠ [] → k ≠ 0) :
    ∃ s', System.sofree (System.closef k) y s = .ok s' ∧ s'.filehead ⊆ s.filehead ∧
      s'.procs = s.procs ∧ s'.socketOf = s.socketOf ∧ s'.unpGcing = s.unpGcing ∧
      s'.socks = s.socks.erase y ∧ (∀ z, z ≠ y → s'.socket z = s.socket z) ∧
      (∀ z, (s'.socket z).stream = (s.socket z).stream ∧ (s'.socket z).conn = (s.socket z).conn) ∧
      s'.flying = s.elsewhere y ∧ s'.unpRights = s'.flying.length ∧
      Tally s' (fun f ↦ s'.uses f + s'.inFlight f) s'.inFlight closing := by
  have hwhole : none ∉ (s.socket y).rights := fun h ↦ hsound.whole (mem_flying.mpr ⟨y, hy, h⟩)
  obtain ⟨files, hfiles⟩ := exists_map_some hwhole
  have hscan : scan (s.socket y).rcv.sbMb = files.map some := (hsound.scan_eq hy).trans hfiles
  have hcount : ∀ f, s.inFlight f = (s.elsewhere y).count (some f) + files.count f := by
    intro f
    rw [inFlight_eq hy, hfiles, count_map_some, Nat.add_comm]
  -- The queue is empty before the rights in it are discarded.
  obtain ⟨hnodup, hcnt, hmsg, hsmall, hle, hmem, hpos, hclosed⟩ := hsound.tally
  have htally : Tally (s.setSock y { s.socket y with rcv := ⟨0, 0, 0, 0, []⟩ })
      (fun f ↦ s.uses f + (s.elsewhere y).count (some f) + files.count f)
      (fun f ↦ (s.elsewhere y).count (some f) + files.count f) closing := by
    have hmoved : Tally (s.setSock y { s.socket y with rcv := ⟨0, 0, 0, 0, []⟩ })
        (fun f ↦ s.uses f + s.inFlight f) s.inFlight closing :=
      ⟨hnodup, hcnt, hmsg, hsmall, hle, hmem, hpos, hclosed⟩
    refine hmoved.congr (fun f ↦ ?_) fun f ↦ (hcount f).symm
    rw [hcount f, Nat.add_assoc]
  have hnone : ∀ f ∈ files, s.uses f + (s.elsewhere y).count (some f) = 0 →
      (s.setSock y { s.socket y with rcv := ⟨0, 0, 0, 0, []⟩ }).socketOf f = none := by
    intro f hf
    exact hlast f (hfiles ▸ List.mem_map_of_mem hf)
  obtain ⟨filehead, count, msgcount, hrun, htally', hsub⟩ := discardAll_spec htally hnone
    (fun hne ↦ hfuel (by simpa [hfiles] using hne))
  have hflying :
    ({ (s.setSock y { s.socket y with rcv := ⟨0, 0, 0, 0, []⟩ }).withFiles filehead count
      msgcount (s.unpRights - files.length) with socks := s.socks.erase y } : System F S).flying =
        s.elsewhere y := by
    apply List.flatMap_congr
    intro z hz
    have hzy : z ≠ y := (hsound.linked.nodup.mem_erase_iff.mp hz).1
    change ((Function.update s.socket y _) z).rights = (s.socket z).rights
    rw [Function.update_of_ne hzy]
  refine ⟨{ (s.setSock y { s.socket y with rcv := ⟨0, 0, 0, 0, []⟩ }).withFiles filehead count
    msgcount (s.unpRights - files.length) with socks := s.socks.erase y }, ?_, hsub, rfl, rfl,
    rfl, rfl,
      fun z hz ↦ Function.update_of_ne hz .., fun z ↦ ?_, hflying, ?_, ?_⟩
  · have hsock : s.sock y = .ok (s.socket y) := if_pos hy
    rw [System.sofree, System.sorflush, hsock, ok_bind, System.unpDispose, hscan, hrun]
    rfl
  · change (Function.update s.socket y _ z).stream = _ ∧ (Function.update s.socket y _ z).conn = _
    by_cases hz : z = y
    · rw [hz, Function.update_self]
      exact ⟨rfl, rfl⟩
    · rw [Function.update_of_ne hz]
      exact ⟨rfl, rfl⟩
  · rw [hflying]
    have hlength := length_flying hy
    have hright := hsound.rights
    rw [hfiles, List.length_map] at hlength
    change s.unpRights - (files.length : ℤ) = _
    omega
  · obtain ⟨hnodup', hcnt', hmsg', hsmall', hle', hmem', hpos', hclosed'⟩ := htally'
    have hin : ∀ f, ({ (s.setSock y { s.socket y with rcv := ⟨0, 0, 0, 0, []⟩ }).withFiles filehead
        count msgcount (s.unpRights - files.length) with socks := s.socks.erase y } :
          System F S).inFlight f = (s.elsewhere y).count (some f) := by
      intro f
      rw [System.inFlight, hflying]
    have hmoved :
      Tally { (s.setSock y { s.socket y with rcv := ⟨0, 0, 0, 0, []⟩ }).withFiles filehead
        count msgcount (s.unpRights - files.length) with socks := s.socks.erase y }
        (fun f ↦ s.uses f + (s.elsewhere y).count (some f)) (fun f ↦ (s.elsewhere y).count (some f))
        closing := ⟨hnodup', hcnt', hmsg', hsmall', hle', hmem', hpos', hclosed'⟩
    exact hmoved.congr (fun f ↦ congrArg (s.uses f + ·) (hin f)) hin

/-! ### The last descriptor of a socket -/

omit [DecidableEq F] [DecidableEq S] in
theorem reachable_cases {f : F} (hreach : Reachable s f) :
    (f ∈ s.filehead ∧ s.count f ≠ 0 ∧ s.count f ≠ s.msgcount f) ∨
      ∃ g z, Reachable s g ∧ s.socketOf g = some z ∧ some f ∈ scan (s.socket z).rcv.sbMb := by
  cases hreach with
  | root hmem hcount hne => exact .inl ⟨hmem, hcount, hne⟩
  | @queued g f hg hqueue =>
    rw [System.queue] at hqueue
    cases hz : s.socketOf g with
    | none =>
      rw [hz] at hqueue
      cases hqueue
    | some z =>
      rw [hz] at hqueue
      exact .inr ⟨g, z, hg, hz, hqueue⟩

/-- The socket `x` of the file `fp` is being closed. What is still open can be reached, or is no
socket and waits only at connections that are going to be aborted. -/
structure Closing (s : System F S) (fp : F) (x : S) (k : ℕ) : Prop where
  sound : Sound s (some fp)
  socket : s.socketOf fp = some x
  fuel : s.filehead.length ≤ k + 1
  kept : ∀ f ∈ s.filehead, f ≠ fp → Reachable s f ∨
    s.socketOf f = none ∧ ∀ y ∈ s.socks, some f ∈ (s.socket y).rights → y ∈ (s.socket x).pending

omit [DecidableEq S] in
theorem Closing.mem {k : ℕ} (hclosing : Closing s fp x k) : x ∈ s.socks :=
  hclosing.sound.linked.files fp (hclosing.sound.tally.closed fp rfl).2 x hclosing.socket

omit [DecidableEq S] in
/-- The file has no references. -/
theorem Closing.no_reference {k : ℕ} (hclosing : Closing s fp x k) :
    s.uses fp = 0 ∧ s.inFlight fp = 0 := by
  have hzero := (hclosing.sound.tally.closed fp rfl).1
  omega

omit [DecidableEq S] in
/-- A file in a message is another one than the file that is being closed. -/
theorem Closing.ne_of_mem {k : ℕ} (hclosing : Closing s fp x k) {f : F} (hy : y ∈ s.socks)
    (hf : some f ∈ (s.socket y).rights) : f ∈ s.filehead ∧ f ≠ fp := by
  obtain ⟨g, hmem, heq, -⟩ := hclosing.sound.open_of_mem hy hf
  cases heq
  refine ⟨hmem, fun h ↦ ?_⟩
  have hpos := inFlight_pos hy hf
  rw [h, hclosing.no_reference.2] at hpos
  exact absurd hpos (Nat.lt_irrefl 0)

omit [DecidableEq S] in
/-- There are calls left to dispose of messages. -/
theorem Closing.fuel_ne {k : ℕ} (hclosing : Closing s fp x k) (hy : y ∈ s.socks)
    (hne : (s.socket y).rights ≠ []) : k ≠ 0 := by
  obtain ⟨r, hr⟩ := List.exists_mem_of_ne_nil _ hne
  obtain ⟨f, -, rfl, -⟩ := hclosing.sound.open_of_mem hy hr
  obtain ⟨hmem, hother⟩ := hclosing.ne_of_mem hy hr
  have hfp := (hclosing.sound.tally.closed fp rfl).2
  intro hzero
  have hlength := hclosing.fuel
  rw [hzero] at hlength
  match hlist : s.filehead, hlength with
  | [], _ =>
    rw [hlist] at hmem
    exact nomatch hmem
  | [g], _ =>
    rw [hlist, List.mem_singleton] at hmem hfp
    exact hother (hmem.trans hfp.symm)

/-- A file that can be reached, without what waits at a socket that cannot. -/
theorem Closing.reachable_elsewhere {k : ℕ} (hclosing : Closing s fp x k) {f : F}
    (hreach : Reachable s f) (hy : ∀ g, Reachable s g → s.socketOf g ≠ some y) :
    s.uses f + (s.elsewhere y).count (some f) ≠ 0 := by
  have hsound := hclosing.sound
  rcases reachable_cases hreach with ⟨hmem, hcount, hne⟩ | ⟨g, z, hg, hz, hf⟩
  · have hthis := hsound.tally.count f hmem
    have hmsg := hsound.tally.msgcount f hmem
    omega
  · have hmem := (hsound.referenced hg).1
    have hzmem := hsound.linked.files g hmem z hz
    rw [hsound.scan_eq hzmem] at hf
    have hzy : z ≠ y := fun h ↦ hy g hg (h ▸ hz)
    have hin : some f ∈ s.elsewhere y :=
      List.mem_flatMap.mpr ⟨z, hsound.linked.nodup.mem_erase_iff.mpr ⟨hzy, hzmem⟩, hf⟩
    have hpos := List.count_pos_iff.mpr hin
    omega

omit [DecidableEq F] in
theorem length_le_of_subset {l l' : List F} (hnodup : l.Nodup) (hsub : l ⊆ l') :
    l.length ≤ l'.length := (List.subperm_of_subset hnodup hsub).length_le

omit [DecidableEq F] in
/-- A socket is freed that no file and no queue of connections refers to. -/
theorem Linked.shrink (hlinked : Linked s) (hsub : s'.filehead ⊆ s.filehead)
    (hsockOf : s'.socketOf = s.socketOf) (hsocks : s'.socks = s.socks.erase y)
    (hstream : ∀ z, (s'.socket z).stream = (s.socket z).stream)
    (hconn : ∀ z w, (s'.socket z).conn = some w → (s.socket z).conn = some w)
    (hpending : ∀ z ∈ s'.socks, (s'.socket z).pending.Sublist (s.socket z).pending)
    (hgone : ∀ z ∈ s'.socks, y ∉ (s'.socket z).pending)
    (hfile : ∀ f ∈ s'.filehead, s.socketOf f ≠ some y) : Linked s' := by
  have hold : ∀ z, z ∈ s'.socks ↔ z ≠ y ∧ z ∈ s.socks := by
    intro z
    rw [hsocks, hlinked.nodup.mem_erase_iff]
  refine ⟨hsocks ▸ hlinked.nodup.erase y, fun f hf z hz ↦ ?_, fun f hf z hz w hw hmem ↦ ?_,
    fun f hf g hg z hz hz' ↦ ?_, fun z hz w hw ↦ ?_, fun z hz ↦ ?_,
    fun z hz z' hz' hne w hw hw' ↦ ?_,
    fun z hz w hw ↦ ?_⟩
  · rw [hsockOf] at hz
    exact (hold z).mpr ⟨fun h ↦ hfile f hf (h ▸ hz), hlinked.files f (hsub hf) z hz⟩
  · rw [hsockOf] at hz
    exact hlinked.accepted f (hsub hf) z hz w ((hold w).mp hw).2 ((hpending w hw).subset hmem)
  · rw [hsockOf] at hz hz'
    exact hlinked.apart f (hsub hf) g (hsub hg) z hz hz'
  · refine (hold w).mpr ⟨fun h ↦ hgone z hz (h ▸ hw), ?_⟩
    exact hlinked.pending z ((hold z).mp hz).2 w ((hpending z hz).subset hw)
  · exact (hlinked.once z ((hold z).mp hz).2).sublist (hpending z hz)
  · exact hlinked.disjoint z ((hold z).mp hz).2 z' ((hold z').mp hz').2 hne w
      ((hpending z hz).subset hw) ((hpending z' hz').subset hw')
  · rw [hstream, hstream]
    exact hlinked.typed z ((hold z).mp hz).2 w (hconn z w hw)

/-- The first pending connection is aborted. -/
theorem Closing.abort {k : ℕ} (hclosing : Closing s fp x k) {rest : List S}
    (hpending : (s.socket x).pending = y :: rest) :
    ∃ s', System.sofree (System.closef k) y ((System.unpDisconnect y s).setSock x
        { (System.unpDisconnect y s).socket x with pending := rest }) = .ok s' ∧
      Closing s' fp x k ∧ (s'.socket x).pending = rest := by
  have hsound := hclosing.sound
  have hlinked := hsound.linked
  have hx := hclosing.mem
  have hfp := (hsound.tally.closed fp rfl).2
  have hyx : y ∈ (s.socket x).pending := hpending ▸ List.mem_cons_self
  have hy := hlinked.pending x hx y hyx
  have hfile : ∀ f ∈ s.filehead, s.socketOf f ≠ some y := fun f hf h ↦
    hlinked.accepted f hf y h x hx hyx
  have hxy : x ≠ y := fun h ↦ hfile fp hfp (h ▸ hclosing.socket)
  -- The connection is out of the queue.
  have hsocket : ∀ z, (((System.unpDisconnect y s).setSock x
      { (System.unpDisconnect y s).socket x with pending := rest }).socket z).rcv =
        (s.socket z).rcv ∧
      (((System.unpDisconnect y s).setSock x
        { (System.unpDisconnect y s).socket x with pending := rest }).socket z).stream =
          (s.socket z).stream ∧
      (((System.unpDisconnect y s).setSock x
        { (System.unpDisconnect y s).socket x with pending := rest }).socket z).pending =
          if z = x then rest else (s.socket z).pending := by
    intro z
    have hdisc := unpDisconnect_socket y z (s := s)
    change (Function.update (System.unpDisconnect y s).socket x _ z).rcv = _ ∧
      (Function.update (System.unpDisconnect y s).socket x _ z).stream = _ ∧
      (Function.update (System.unpDisconnect y s).socket x _ z).pending = _
    by_cases hz : z = x
    · subst hz
      rw [Function.update_self, if_pos rfl]
      exact ⟨hdisc.1, hdisc.2.1, rfl⟩
    · rw [Function.update_of_ne hz, if_neg hz]
      exact hdisc
  obtain ⟨s₁, hs₁⟩ : ∃ s₁, s₁ = (System.unpDisconnect y s).setSock x
    { (System.unpDisconnect y s).socket x with pending := rest } := ⟨_, rfl⟩
  have hconn : ∀ z w, (s₁.socket z).conn = some w → (s.socket z).conn = some w := by
    intro z w hw
    rw [hs₁] at hw
    change (Function.update (System.unpDisconnect y s).socket x _ z).conn = _ at hw
    by_cases hz : z = x
    · subst hz
      rw [Function.update_self] at hw
      exact unpDisconnect_conn y z w hw
    · rw [Function.update_of_ne hz] at hw
      exact unpDisconnect_conn y z w hw
  rw [← hs₁] at hsocket ⊢
  have hsub : ∀ z ∈ s.socks, (s₁.socket z).pending.Sublist (s.socket z).pending := by
    intro z _
    rw [(hsocket z).2.2]
    split_ifs with hz
    · rw [hz, hpending]
      exact List.sublist_cons_self y rest
    · exact List.Sublist.refl _
  have hsame : s₁ = { s with socket := s₁.socket } := by
    rw [hs₁]
    rfl
  have hsound₁ : Sound s₁ (some fp) := by
    rw [hsame]
    exact hsound.resock (fun z ↦ (hsocket z).1) (fun z ↦ (hsocket z).2.1) hconn hsub
  have hrights : ∀ z, (s₁.socket z).rights = (s.socket z).rights := by
    intro z
    rw [Socket.rights, Socket.rights, (hsocket z).1]
  have hsocks : s₁.socks = s.socks := by rw [hsame]
  have helse : s₁.elsewhere y = s.elsewhere y := elsewhere_congr hlinked.nodup hsocks fun z _ ↦
    hrights z
  have huses : s₁.uses = s.uses := by rw [hsame]; rfl
  have hsockOf₁ : s₁.socketOf = s.socketOf := by rw [hsame]
  have hlist₁ : s₁.filehead = s.filehead := by rw [hsame]
  have hnotY : ∀ g, Reachable s g → s.socketOf g ≠ some y := fun g hg ↦
    hfile g (hsound.referenced hg).1
  obtain ⟨s', hrun, hlist, hprocs, hsockOf, hgcing, hsocks', hrest, hfixed, hflying, hright,
    htally⟩ :=
    sofree_spec (k := k) hsound₁ (hsocks ▸ hy) (fun f hf hzero ↦ by
      rw [hrights] at hf
      rw [huses, helse] at hzero
      rw [hsockOf₁]
      obtain ⟨hmem, hother⟩ := hclosing.ne_of_mem hy hf
      rcases hclosing.kept f hmem hother with hreach | ⟨hnone, -⟩
      · exact absurd hzero (hclosing.reachable_elsewhere hreach hnotY)
      · exact hnone) (fun hne ↦ hclosing.fuel_ne hy (hrights y ▸ hne))
  rw [hlist₁] at hlist
  rw [hsockOf₁] at hsockOf
  rw [hsocks] at hsocks'
  have hold : ∀ z, z ∈ s'.socks ↔ z ≠ y ∧ z ∈ s.socks := by
    intro z
    rw [hsocks', hlinked.nodup.mem_erase_iff]
  have hlinked' : Linked s' := by
    refine hlinked.shrink hlist hsockOf hsocks' (fun z ↦ (hfixed z).1.trans (hsocket z).2.1)
      (fun z w hw ↦ hconn z w ((hfixed z).2.symm.trans hw)) (fun z hz ↦ ?_) (fun z hz hmem ↦ ?_)
      fun f hf ↦ hfile f (hlist hf)
    · rw [hrest z ((hold z).mp hz).1]
      exact hsub z ((hold z).mp hz).2
    · rw [hrest z ((hold z).mp hz).1, (hsocket z).2.2] at hmem
      split_ifs at hmem with hzx
      · have honce := hlinked.once x hx
        rw [hpending] at honce
        exact (List.nodup_cons.mp honce).1 hmem
      · exact hlinked.disjoint z ((hold z).mp hz).2 x hx hzx y hmem hyx
  have hqueue : ∀ z, z ≠ y → (s'.socket z).rcv = (s.socket z).rcv := fun z hz ↦
    (congrArg Socket.rcv (hrest z hz)).trans (hsocket z).1
  have huses' : ∀ f, s'.uses f = s.uses f := by
    intro f
    rw [System.uses, hprocs]
    exact congrFun huses f
  have hsound' : Sound s' (some fp) := by
    refine ⟨?_, htally, hright, ?_, fun z hz record hrecord ↦ ?_, hlinked', ?_⟩
    · rw [hprocs]
      exact hsound₁.tables
    · rw [hflying, helse]
      exact fun h ↦ hsound.whole ((flying_perm hy).mem_iff.mpr (List.mem_append_right _ h))
    · have hz' := (hold z).mp hz
      rw [hqueue z hz'.1] at hrecord
      rw [hrest z hz'.1, (hsocket z).2.1]
      exact hsound.shape z hz'.2 record hrecord
    · rw [hgcing]
      exact hsound₁.gcing
  refine ⟨s', hrun, ⟨hsound', ?_, ?_, fun f hf hother ↦ ?_⟩, ?_⟩
  · rw [hsockOf]
    exact hclosing.socket
  · exact Nat.le_trans (length_le_of_subset hsound'.tally.nodup hlist) hclosing.fuel
  · rcases hclosing.kept f (hlist hf) hother with hreach | ⟨hnone, honly⟩
    · refine Or.inl (hsound.reachable_keep htally huses' hsockOf (fun g z hg hz ↦ ?_) hreach)
      exact hqueue z fun h ↦ hnotY g hg (h ▸ hz)
    · refine Or.inr ⟨hsockOf ▸ hnone, fun z hz hmem ↦ ?_⟩
      have hz' := (hold z).mp hz
      rw [hrest z hz'.1, hrights] at hmem
      have hthis := honly z hz'.2 hmem
      rw [hpending] at hthis
      rw [hrest x hxy, (hsocket x).2.2, if_pos rfl]
      exact (List.mem_cons.mp hthis).resolve_left hz'.1
  · rw [hrest x hxy, (hsocket x).2.2, if_pos rfl]

/-- All pending connections are aborted. -/
theorem Closing.abortPending {k : ℕ} {pending : List S} (hclosing : Closing s fp x k)
    (hpending : (s.socket x).pending = pending) :
    ∃ s', System.abortPending (System.closef k) x pending.length s = .ok s' ∧ Closing s' fp x k ∧
      (s'.socket x).pending = [] := by
  induction pending generalizing s with
  | nil =>
    have hsock : s.sock x = .ok (s.socket x) := if_pos hclosing.mem
    refine ⟨s, ?_, hclosing, hpending⟩
    rw [List.length_nil, System.abortPending, hsock, ok_bind, if_pos hpending]
    rfl
  | cons y rest ih =>
    obtain ⟨s₁, hstep, hclosing₁, hpending₁⟩ := hclosing.abort hpending
    obtain ⟨s', hrun, hrest⟩ := ih hclosing₁ hpending₁
    have hsock : s.sock x = .ok (s.socket x) := if_pos hclosing.mem
    refine ⟨s', ?_, hrest⟩
    rw [List.length_cons, System.abortPending, hsock, ok_bind, hpending]
    dsimp only
    rw [hstep, ok_bind]
    exact hrun

omit [DecidableEq S] in
/-- Nothing but the socket is left to close. -/
theorem Closing.reachable {k : ℕ} (hclosing : Closing s fp x k) (hnil : (s.socket x).pending = [])
    {f : F} (hmem : f ∈ s.filehead) (hne : f ≠ fp) : Reachable s f := by
  rcases hclosing.kept f hmem hne with hreach | ⟨-, honly⟩
  · exact hreach
  have hzero : s.inFlight f = 0 := by
    by_contra hpos
    obtain ⟨y, hy, hf⟩ := mem_flying.mp (List.count_pos_iff.mp (Nat.pos_of_ne_zero hpos))
    have hthis := honly y hy hf
    rw [hnil] at hthis
    exact nomatch hthis
  have htally := hclosing.sound.tally
  have huses : s.uses f ≠ 0 := by
    intro hno
    have hthis := htally.pos f hmem (by omega)
    exact hne (Option.some.inj hthis).symm
  have hcount := htally.count f hmem
  have hmsg := htally.msgcount f hmem
  exact .root hmem (by omega) (by omega)

/-- `soclose`, and the file is freed. -/
theorem Closing.soclose {k : ℕ} (hclosing : Closing s fp x k) :
    ∃ s₁ s', System.soclose (System.closef k) x s = .ok s₁ ∧ s₁.ffree fp = .ok s' ∧
      Sound s' none := by
  obtain ⟨s₁, habort, hclosing₁, hnil⟩ := hclosing.abortPending rfl
  obtain ⟨s₂, hs₂⟩ : ∃ s₂, s₂ = System.unpDisconnect x s₁ := ⟨_, rfl⟩
  have hdisc : ∀ z, _ := unpDisconnect_socket (s := s₁) x
  rw [← hs₂] at hdisc
  have hsame : s₂ = { s₁ with socket := s₂.socket } := by
    rw [hs₂]
    rfl
  have hsound₂ : Sound s₂ (some fp) := hs₂ ▸ hclosing₁.sound.unpDisconnect
  have hlist : s₂.filehead = s₁.filehead := by rw [hsame]
  have hsockOf : s₂.socketOf = s₁.socketOf := by rw [hsame]
  have hprocs : s₂.procs = s₁.procs := by rw [hsame]
  have hreach : ∀ f ∈ s₂.filehead, f ≠ fp → Reachable s₂ f := by
    intro f hf hne
    refine hclosing₁.sound.reachable_keep hsound₂.tally (fun g ↦ ?_) hsockOf
      (fun g z _ _ ↦ (hdisc z).1) (hclosing₁.reachable hnil (hlist ▸ hf) hne)
    rw [System.uses, hprocs]
    rfl
  have hclosing₂ : Closing s₂ fp x k := by
    refine ⟨hsound₂, hsockOf ▸ hclosing₁.socket, hlist ▸ hclosing₁.fuel, fun f hf hne ↦ ?_⟩
    exact Or.inl (hreach f hf hne)
  have hx := hclosing₂.mem
  -- What `unp_gc` looks for does not exist.
  have hgc : System.unpGc (System.closef k) s₂ = .ok s₂ := by
    refine unpGc_eq hsound₂.traversable hsound₂.gcing fun f hf hcount ↦ hreach f hf fun h ↦ ?_
    have hthis := hsound₂.tally.count f hf
    rw [h, (hsound₂.tally.closed fp rfl).1] at hthis
    exact hcount (h ▸ hthis)
  have hapart : ∀ g, Reachable s₂ g → s₂.socketOf g ≠ some x := by
    intro g hg hgx
    obtain ⟨hmem, hne⟩ := hsound₂.referenced hg
    have hfp := (hsound₂.tally.closed fp rfl)
    have heq := hsound₂.linked.apart g hmem fp hfp.2 x hgx hclosing₂.socket
    rw [heq] at hne
    exact hne hfp.1
  obtain ⟨s₃, hfree, hlist₃, hprocs₃, hsockOf₃, hgcing₃, hsocks₃, hrest, hfixed, hflying, hright,
    htally⟩ :=
    sofree_spec (k := k) hsound₂ hx (fun f hf hzero ↦ by
      obtain ⟨hmem, hother⟩ := hclosing₂.ne_of_mem hx hf
      exact absurd hzero (hclosing₂.reachable_elsewhere (hreach f hmem hother) hapart))
      fun hne ↦ hclosing₂.fuel_ne hx hne
  have hfp₃ := htally.closed fp rfl
  have hmem : ∀ f, f ∈ s₃.filehead.erase fp ↔ f ≠ fp ∧ f ∈ s₃.filehead := fun f ↦
    htally.nodup.mem_erase_iff
  have hold : ∀ z, z ∈ s₃.socks ↔ z ≠ x ∧ z ∈ s₂.socks := by
    intro z
    rw [hsocks₃, hsound₂.linked.nodup.mem_erase_iff]
  refine ⟨s₃, { s₃ with filehead := s₃.filehead.erase fp }, ?_, if_pos hfp₃.2,
    ⟨?_, ⟨htally.nodup.erase fp, fun f hf ↦ ?_, fun f hf ↦ ?_, htally.small, htally.le,
    fun f hne ↦ ?_,
      fun f hf hzero ↦ ?_, nofun⟩, hright, ?_, fun z hz record hrecord ↦ ?_, ?_, ?_⟩⟩
  · have hsock : s.sock x = .ok (s.socket x) := if_pos hclosing.mem
    rw [System.soclose, hsock, ok_bind, habort, ok_bind]
    dsimp only
    rw [← hs₂, hgc, ok_bind, ite_self]
    exact hfree
  · have htables := hsound₂.tables
    rw [← hprocs₃] at htables
    exact htables
  · exact htally.count f ((hmem f).mp hf).2
  · exact htally.msgcount f ((hmem f).mp hf).2
  · refine (hmem f).mpr ⟨fun h ↦ ?_, htally.mem f hne⟩
    rw [h] at hne
    exact hne hfp₃.1
  · obtain ⟨hne, hin⟩ := (hmem f).mp hf
    exact absurd (Option.some.inj (htally.pos f hin hzero)).symm hne
  · change none ∉ s₃.flying
    rw [hflying]
    exact fun h ↦ hsound₂.whole ((flying_perm hx).mem_iff.mpr (List.mem_append_right _ h))
  · have hz' := (hold z).mp hz
    dsimp only at hrecord ⊢
    rw [hrest z hz'.1] at hrecord ⊢
    exact hsound₂.shape z hz'.2 record hrecord
  · refine hsound₂.linked.shrink (fun f hf ↦ hlist₃ ((hmem f).mp hf).2) hsockOf₃ hsocks₃
      (fun z ↦ (hfixed z).1) (fun z w hw ↦ (hfixed z).2.symm.trans hw) (fun z hz ↦ ?_)
        (fun z hz hmemz ↦ ?_) fun f hf hfx ↦ ?_
    · dsimp only
      rw [hrest z ((hold z).mp hz).1]
    · dsimp only at hmemz
      rw [hrest z ((hold z).mp hz).1] at hmemz
      exact hsound₂.linked.accepted fp (hsound₂.tally.closed fp rfl).2 x hclosing₂.socket z
        ((hold z).mp hz).2 hmemz
    · obtain ⟨hne, hin⟩ := (hmem f).mp hf
      exact hne (hsound₂.linked.apart f (hlist₃ hin) fp (hsound₂.tally.closed fp rfl).2 x hfx
        hclosing₂.socket)
  · exact hgcing₃.trans hsound₂.gcing

/-! ### Closing a descriptor -/

omit [DecidableEq F] in
/-- `close` takes the descriptor out of the table. -/
theorem release_spec {fdp : Filedesc F} {fd : ℕ} (hsound : fdp.Sound)
    (hopen : fdp.opened fd ≠ none) :
    ∃ fdp', release fdp fd = .ok fdp' ∧ fdp'.Sound ∧
      fdp'.opened = Function.update fdp.opened fd none := by
  have hlt := Filedesc.opened_lt hopen
  have hlength : fdp.lastfile < (fdp.slots.set fd ⟨none, 0⟩).length := by
    rw [List.length_set]
    exact hsound.lastfile_lt
  obtain ⟨lastfile, hlower, hle, habove⟩ := Filedesc.lower_spec hlength
  refine ⟨fdp.removed fd lastfile, ?_, hsound.removed hlt hle fun d hd hdopen ↦ ?_,
    Filedesc.opened_removed hlt⟩
  · rw [release, Filedesc.store_eq hlt, ok_bind]
    dsimp only
    rw [hlower, ok_bind]
    rfl
  · apply habove d (hsound.le_lastfile d hdopen)
    rw [List.getElem?_set_ne (Ne.symm hd), Option.isSome_iff_ne_none]
    intro hnone
    exact hdopen (Filedesc.isNone_iff.mp (Option.isNone_iff_eq_none.mpr hnone))

omit [DecidableEq F] [DecidableEq S] in
theorem Reachable.congr {f : F} (hlist : s'.filehead = s.filehead) (hcount : s'.count = s.count)
    (hmsg : s'.msgcount = s.msgcount) (hsockOf : s'.socketOf = s.socketOf)
    (hsocket : s'.socket = s.socket) (hreach : Reachable s f) : Reachable s' f := by
  induction hreach with
  | root hmem hne hdiff => exact .root (hlist ▸ hmem) (hcount ▸ hne) (hcount ▸ hmsg ▸ hdiff)
  | queued _ hqueue ih =>
    refine .queued ih ?_
    rw [System.queue, hsockOf, hsocket]
    exact hqueue

omit [DecidableEq S] in
/-- The descriptors after one of them is closed. -/
theorem uses_release {p fd : ℕ} {lim : ℤ} {fdp fdp' : Filedesc F} {flags : BitVec 8}
    (hp : s.procs[p]? = some ⟨lim, some fdp⟩) (hopen : fdp.opened fd = some (fp, flags))
    (hopened : fdp'.opened = Function.update fdp.opened fd none) (f : F) :
    ({ s with procs := s.procs.set p ⟨lim, some fdp'⟩ } : System F S).uses f +
      (if f = fp then 1 else 0) = s.uses f := by
  obtain ⟨others, hall, hset⟩ := uses_set hp
  have hupdate := uses_update hopened f
  rw [hopen, names_some, names_none] at hupdate
  have hbefore := hall f
  have hafter := hset ⟨lim, some fdp'⟩ f
  rw [System.uses, System.uses, hbefore, hafter]
  change fdp'.uses f + others f + _ = fdp.uses f + others f
  omega

omit [DecidableEq S] in
/-- A descriptor goes and is counted as gone. If it was the last reference, the file is being
closed. -/
theorem Sound.countDown {procs : List (Proc F)} (hsound : Sound s none)
    (htables : ∀ q ∈ procs, ∀ fdp, q.fd = some fdp → fdp.Sound)
    (huses : ∀ f, ({ s with procs := procs } : System F S).uses f + (if f = fp then 1 else 0) =
    s.uses f)
    (hclosing : closing = none ∧ s.count fp ≠ 1 ∨ closing = some fp ∧ s.count fp = 1) :
    Sound (({ s with procs := procs } : System F S).setCount fp (s.count fp - 1)) closing := by
  obtain ⟨-, ⟨hnodup, hcount, hmsg, hsmall, hle, hmem, hpos, -⟩, hright, hwhole, hshape,
    ⟨h₁, h₂, h₃, h₄, h₅, h₆, h₇, h₈⟩, hgcing⟩ := hsound
  have hfp := huses fp
  rw [if_pos rfl] at hfp
  have hmemfp := hmem fp (by omega)
  have hcountfp := hcount fp hmemfp
  refine ⟨htables, ⟨hnodup, fun f hf ↦ ?_, hmsg, fun f ↦ ?_, fun f ↦ Nat.le_add_left _ _,
    fun f hne ↦ ?_,
    fun f hf hzero ↦ ?_, fun f hf ↦ ?_⟩, hright, hwhole, hshape, ⟨h₁, h₂, h₃, h₄, h₅, h₆, h₇, h₈⟩,
    hgcing⟩
  · have hold := hcount f hf
    have hthis := huses f
    change Function.update s.count fp (s.count fp - 1) f = ((_ + s.inFlight f : ℕ) : ℤ)
    by_cases heq : f = fp
    · rw [if_pos heq] at hthis
      rw [heq, Function.update_self]
      rw [heq] at hold hthis
      change s.count fp - 1 =
        ((({ s with procs := procs } : System F S).uses fp + s.inFlight fp : ℕ) : ℤ)
      omega
    · rw [if_neg heq] at hthis
      rw [Function.update_of_ne heq]
      change s.count f = ((({ s with procs := procs } : System F S).uses f + s.inFlight f : ℕ) : ℤ)
      omega
  · have hthis := huses f
    have hbound := hsmall f
    change ({ s with procs := procs } : System F S).uses f + s.inFlight f < 2 ^ 15
    omega
  · have hthis := huses f
    change ({ s with procs := procs } : System F S).uses f + s.inFlight f ≠ 0 at hne
    exact hmem f (by omega)
  · have hthis := huses f
    change ({ s with procs := procs } : System F S).uses f + s.inFlight f = 0 at hzero
    by_cases heq : f = fp
    · rw [heq] at hthis hzero
      rw [if_pos rfl] at hthis
      rcases hclosing with ⟨-, hne⟩ | ⟨hclosing, -⟩
      · exact absurd (by omega) hne
      · rw [hclosing, heq]
    · rw [if_neg heq] at hthis
      exact nomatch hpos f hf (by omega)
  · rcases hclosing with ⟨hclosing, -⟩ | ⟨hclosing, hone⟩
    · rw [hclosing] at hf
      exact nomatch hf
    · rw [hclosing] at hf
      cases hf
      refine ⟨?_, hmemfp⟩
      change ({ s with procs := procs } : System F S).uses fp + s.inFlight fp = 0
      omega

/-- `closef` of an open file. -/
theorem close_eq {k : ℕ} (hmem : fp ∈ s.filehead) (hk : s.filehead.length = k + 1)
    (hlow : 0 < s.count fp) (hhigh : s.count fp < 2 ^ 15) :
    System.close fp s =
      if 0 < s.count fp - 1 then .ok (s.setCount fp (s.count fp - 1))
      else
        match s.socketOf fp with
        | none => (s.setCount fp (s.count fp - 1)).ffree fp
        | some x =>
          System.soclose (System.closef k) x (s.setCount fp (s.count fp - 1)) >>= fun s ↦
            s.ffree fp := by
  have hnext : short (s.count fp - 1) = s.count fp - 1 := short_eq (by omega) (by omega)
  have hsockOf : (s.setCount fp (s.count fp - 1)).socketOf = s.socketOf := rfl
  rw [System.close, hk, System.closef, file_eq hmem, ok_bind]
  simp only [hnext, hsockOf]
  by_cases hpos : 0 < s.count fp - 1
  · rw [if_pos hpos, if_pos hpos]
    rfl
  · rw [if_neg hpos, if_neg hpos]
    exact if_neg (by omega)

omit [DecidableEq S] in
/-- A file that is no socket is freed. -/
theorem Sound.freed (hsound : Sound s (some fp)) :
    ∃ s', s.ffree fp = .ok s' ∧ (s.socketOf fp = none → Sound s' none) := by
  obtain ⟨htables, ⟨hnodup, hcount, hmsg, hsmall, hle, hmem, hpos, hclosed⟩, hright, hwhole, hshape,
    ⟨h₁, h₂, h₃, h₄, h₅, h₆, h₇, h₈⟩, hgcing⟩ := hsound
  have hfp := hclosed fp rfl
  have hlist : ∀ f, f ∈ s.filehead.erase fp ↔ f ≠ fp ∧ f ∈ s.filehead :=
    fun f ↦ hnodup.mem_erase_iff
  refine ⟨{ s with filehead := s.filehead.erase fp }, if_pos hfp.2, fun _ ↦ ⟨htables,
    ⟨hnodup.erase fp, fun f hf ↦ hcount f ((hlist f).mp hf).2,
    fun f hf ↦ hmsg f ((hlist f).mp hf).2,
      hsmall, hle, fun f hne ↦ ?_, fun f hf hzero ↦ ?_, nofun⟩, hright, hwhole, hshape,
    ⟨h₁, fun f hf ↦ h₂ f ((hlist f).mp hf).2, fun f hf ↦ h₃ f ((hlist f).mp hf).2,
      fun f hf g hg ↦ h₄ f ((hlist f).mp hf).2 g ((hlist g).mp hg).2, h₅, h₆, h₇, h₈⟩, hgcing⟩⟩
  · refine (hlist f).mpr ⟨fun h ↦ ?_, hmem f hne⟩
    rw [h] at hne
    exact hne hfp.1
  · obtain ⟨hne, hf'⟩ := (hlist f).mp hf
    exact absurd (Option.some.inj (hpos f hf' hzero)).symm hne

/-- Closing a descriptor. -/
theorem Sound.exec_close {p fd : ℕ} (hsound : Sound s none) (hmeets : (Event.close p fd).Meets s) :
    ∃ s' r, s.exec (.close p fd) = .ok (s', r) ∧ Sound s' none := by
  rw [System.exec]
  match hp : s.procs[p]? with
  | none => exact ⟨s, none, rfl, hsound⟩
  | some ⟨lim, none⟩ => exact ⟨s, none, rfl, hsound⟩
  | some ⟨lim, some fdp⟩ =>
    dsimp only
    match hopen : fdp.opened fd with
    | none => exact ⟨s, some .ebadf, rfl, hsound⟩
    | some (fp, flags) =>
      have htable := hsound.tables _ (List.mem_of_getElem? hp) fdp rfl
      obtain ⟨fdp', hrelease, htable', hopened⟩ :=
        release_spec htable (hopen ▸ Option.some_ne_none _)
      have huses := uses_release hp hopen hopened
      have htables : ∀ q ∈ s.procs.set p ⟨lim, some fdp'⟩, ∀ fdp, q.fd = some fdp → fdp.Sound := by
        intro q hq fdq hfd
        rcases List.mem_or_eq_of_mem_set hq with hold | rfl
        · exact hsound.tables q hold fdq hfd
        · cases hfd
          exact htable'
      have hfp := huses fp
      rw [if_pos rfl] at hfp
      have hmem := hsound.tally.mem fp (by omega)
      have hcount := hsound.tally.count fp hmem
      have hsmall := hsound.tally.small fp
      obtain ⟨k, hk⟩ : ∃ k, s.filehead.length = k + 1 :=
        Nat.exists_eq_succ_of_ne_zero (Nat.ne_of_gt (List.length_pos_of_mem hmem))
      obtain ⟨s₁, hs₁⟩ : ∃ s₁ :
        System F S, s₁ = { s with procs := s.procs.set p ⟨lim, some fdp'⟩ } :=
        ⟨_, rfl⟩
      have hmem₁ : fp ∈ s₁.filehead := by rwa [hs₁]
      have hk₁ : s₁.filehead.length = k + 1 := by rwa [hs₁]
      have hcount₁ : s₁.count fp = s.count fp := by rw [hs₁]
      have hclose := close_eq hmem₁ hk₁ (by omega) (by omega)
      rw [hcount₁, show s₁.socketOf = s.socketOf by rw [hs₁]] at hclose
      have hdown :
        ∀ closing, (closing = none ∧ s.count fp ≠ 1 ∨ closing = some fp ∧ s.count fp = 1) →
          Sound (s₁.setCount fp (s.count fp - 1)) closing := by
        intro closing hclosing
        rw [hs₁]
        exact hsound.countDown htables huses hclosing
      suffices hrun : ∃ s', System.close fp s₁ = .ok s' ∧ Sound s' none by
        obtain ⟨s', hclosed, hsound'⟩ := hrun
        refine ⟨s', none, ?_, hsound'⟩
        dsimp only
        rw [hrelease, ok_bind, ← hs₁, hclosed]
        rfl
      rw [hclose]
      by_cases hone : s.count fp = 1
      · have hsound₁ := hdown (some fp) (Or.inr ⟨rfl, hone⟩)
        rw [if_neg (by omega)]
        match hx : s.socketOf fp with
        | none =>
          obtain ⟨s', hfree, hsound'⟩ := hsound₁.freed
          refine ⟨s', hfree, hsound' ?_⟩
          rw [hs₁]
          exact hx
        | some x =>
          have hclosing : Closing (s₁.setCount fp (s.count fp - 1)) fp x k := by
            rw [hs₁] at hsound₁ ⊢
            refine ⟨hsound₁, hx, Nat.le_of_eq hk, fun f hf hne ↦ ?_⟩
            rcases hmeets lim fdp fp flags x hp hopen hone hx f hf hne with hreach | honly
            · refine Or.inl (Reachable.congr (s := s.setCount fp 0) rfl ?_ rfl rfl rfl hreach)
              rw [hone]
              rfl
            · exact Or.inr honly
          obtain ⟨s₂, s₃, hsoclose, hffree, hsound₃⟩ := hclosing.soclose
          refine ⟨s₃, ?_, hsound₃⟩
          dsimp only
          rw [hsoclose, ok_bind]
          exact hffree
      · rw [if_pos (by omega)]
        exact ⟨_, rfl, hdown none (Or.inl ⟨rfl, hone⟩)⟩

end Bsd386.Un
