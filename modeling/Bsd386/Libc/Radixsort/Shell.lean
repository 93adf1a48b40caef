import Bsd386.Lib.Partial
import Bsd386.Libc.Radixsort.Basic
import Mathlib.Tactic.SplitIfs
import Mathlib.Tactic.Tauto

/-!
# Shell sort of strings

Strings that have as many bytes as were looked at already are compared by what is left of their
weights, without reading behind an end byte. Every pass of the sort permutes them, and the last one
sorts them by insertion.
-/

namespace Bsd386.Libc.Radixsort

variable {α : Type*} {strings : Strings α} {p q x y : α} {indx incr fuel a : ℕ} {l : List ℕ}

/-- The weights of a string, without that of the end byte. -/
def Strings.weights (strings : Strings α) (p : α) : List ℕ :=
  (strings.text p).map fun c ↦ (strings.tr c).toNat

/-! ## Weights -/

theorem ltab_eq_zero (endbyte c : BitVec 8) : ltab endbyte c = 0 ↔ c = endbyte := by
  rw [ltab]
  split_ifs with hlt heq
  · have hne : c ≠ endbyte := BitVec.ne_of_lt hlt
    refine iff_of_false (fun hzero ↦ ?_) hne
    have hnat := congrArg BitVec.toNat hzero
    rw [BitVec.toNat_add] at hnat
    have hlt' : c.toNat < endbyte.toNat := hlt
    have hend := endbyte.isLt
    change (c.toNat + 1) % 2 ^ 8 = 0 at hnat
    omega
  · exact iff_of_true rfl heq
  · refine iff_of_false (fun hzero ↦ hlt ?_) heq
    rw [hzero] at heq ⊢
    have hpos : (0 : BitVec 8).toNat ≠ endbyte.toNat := fun h ↦ heq (BitVec.eq_of_toNat_eq h)
    change (0 : BitVec 8).toNat < endbyte.toNat
    exact Nat.pos_of_ne_zero (Ne.symm hpos)

theorem Strings.tr_eq_zero (strings : Strings α) (c : BitVec 8) :
    strings.tr c = 0 ↔ c = strings.endbyte := by
  rw [Strings.tr]
  cases htab : strings.tab with
  | none => exact ltab_eq_zero strings.endbyte c
  | some t => exact strings.tab_eq t htab c

theorem Strings.ne_zero (ha : a ∈ strings.weights p) : a ≠ 0 := by
  obtain ⟨c, hc, rfl⟩ := List.mem_map.mp ha
  intro hzero
  have hend : c = strings.endbyte := (strings.tr_eq_zero c).mp (BitVec.eq_of_toNat_eq hzero)
  exact strings.text_ne p (hend ▸ hc)

theorem Strings.lt_256 (ha : a ∈ strings.weights p) : a < 256 := by
  obtain ⟨c, -, rfl⟩ := List.mem_map.mp ha
  exact (strings.tr c).isLt

theorem key_eq : strings.key indx p = (strings.weights p ++ [0])[indx]? := by
  have hend : (strings.tr strings.endbyte).toNat = 0 := by
    rw [(strings.tr_eq_zero _).mpr rfl]
    rfl
  rw [Strings.key, Strings.weights, ← List.getElem?_map, List.map_append, List.map_singleton, hend]

/-- At its end a string has weight 0. -/
theorem key_of_nil (hnil : (strings.weights p).drop indx = [])
    (hle : indx ≤ (strings.weights p).length) : strings.key indx p = some 0 := by
  have hlength : (strings.weights p).length = indx :=
    Nat.le_antisymm (List.drop_eq_nil_iff.mp hnil) hle
  rw [key_eq, ← hlength, List.getElem?_concat_length]

/-- Before its end a string has its next weight. -/
theorem key_of_cons (hcons : (strings.weights p).drop indx = a :: l) :
    strings.key indx p = some a ∧ (strings.weights p).drop (indx + 1) = l ∧
      indx + 1 ≤ (strings.weights p).length ∧ a ≠ 0 := by
  have hlt : indx < (strings.weights p).length := by
    by_contra hge
    rw [List.drop_eq_nil_of_le (Nat.le_of_not_lt hge)] at hcons
    cases hcons
  have hfirst := List.drop_eq_getElem_cons hlt
  rw [hcons] at hfirst
  obtain ⟨ha, hl⟩ := List.cons_eq_cons.mp hfirst
  refine ⟨?_, hl.symm, hlt, ?_⟩
  · rw [key_eq, List.getElem?_append_left hlt, List.getElem?_eq_getElem hlt, ha]
  · rw [ha]
    exact Strings.ne_zero (List.getElem_mem hlt)

/-! ## The comparison -/

/-- The order of sequences of weights. -/
abbrev Before (l m : List ℕ) : Prop := List.Lex (· < ·) l m

instance : DecidableRel Before := fun l m ↦ List.decidableLex (· < ·) l m

theorem Before.append_iff (w l m : List ℕ) : Before (w ++ l) (w ++ m) ↔ Before l m := by
  induction w with
  | nil => exact Iff.rfl
  | cons a w ih =>
    rw [List.cons_append, List.cons_append, Before, List.cons_lex_cons_iff]
    exact ⟨fun h ↦ ih.mp (h.resolve_left (Nat.lt_irrefl a)).2, fun h ↦ Or.inr ⟨rfl, ih.mpr h⟩⟩

theorem Before.not_append {w l : List ℕ} : ¬Before (w ++ l) w := by
  have hnil : ¬Before l [] := List.not_lex_nil
  have hiff := Before.append_iff w l []
  rw [List.append_nil] at hiff
  exact mt hiff.mp hnil

theorem Before.asymm {l m : List ℕ} (h : Before l m) : ¬Before m l := List.le_of_lt h

/-- The comparison reads no byte behind an end byte and compares what is left of the weights. -/
theorem above_eq (hp : indx ≤ (strings.weights p).length) (hq : indx ≤ (strings.weights q).length)
    (hfuel : (strings.weights p).length < indx + fuel) :
    above strings p q fuel indx =
      some (decide (Before ((strings.weights q).drop indx) ((strings.weights p).drop indx))) := by
  induction fuel generalizing indx with
  | zero => omega
  | succ fuel ih =>
    rw [above]
    cases hrest : (strings.weights p).drop indx with
    | nil =>
      rw [key_of_nil hrest hp, Option.bind_some]
      cases hrest' : (strings.weights q).drop indx with
      | nil => rw [key_of_nil hrest' hq]; rfl
      | cons b m => 
        rw [(key_of_cons hrest').1, Option.bind_some, if_neg fun h ↦ h.2 rfl]
        rfl
    | cons a l =>
      obtain ⟨hkey, hnext, hlt, hne⟩ := key_of_cons hrest
      rw [hkey, Option.bind_some]
      cases hrest' : (strings.weights q).drop indx with
      | nil =>
        rw [key_of_nil hrest' hq, Option.bind_some, if_neg fun h ↦ h.2 h.1,
          decide_eq_true (List.Lex.nil : Before [] (a :: l)), decide_eq_true (Nat.pos_of_ne_zero hne)]
      | cons b m =>
        obtain ⟨hkey', hnext', hlt', -⟩ := key_of_cons hrest'
        rw [hkey', Option.bind_some]
        by_cases heq : a = b
        · rw [if_pos ⟨heq, hne⟩, ih hlt hlt' (by omega), hnext, hnext', Option.some_inj,
            decide_eq_decide, Before, Before, List.cons_lex_cons_iff]
          exact ⟨fun h ↦ Or.inr ⟨heq.symm, h⟩,
            fun h ↦ (h.resolve_left (Nat.not_lt.mpr (Nat.le_of_eq heq))).2⟩
        · rw [if_neg fun h ↦ heq h.1, Option.some_inj, decide_eq_decide, Before, List.cons_lex_cons_iff]
          exact ⟨Or.inl, fun h ↦ h.resolve_right fun h' ↦ heq h'.1.symm⟩

/-- The order of the strings. -/
def Strings.Le (strings : Strings α) (p q : α) : Prop :=
  ¬Before (strings.weights q) (strings.weights p)

theorem Strings.Le.trans (hxy : strings.Le x y) (hyp : strings.Le y p) : strings.Le x p :=
  List.le_trans hxy hyp

/-- Strings that begin with the same weights are compared by the rest of them. -/
theorem above_of_prefix {w : List ℕ} (hp : w <+: strings.weights p) (hq : w <+: strings.weights q) :
    above strings p q ((strings.text p).length + 1) w.length =
      some (decide (Before (strings.weights q) (strings.weights p))) := by
  have hlength : (strings.weights p).length = (strings.text p).length := List.length_map _
  rw [above_eq hp.length_le hq.length_le (by omega), Option.some_inj, decide_eq_decide]
  obtain ⟨l, hl⟩ := hp
  obtain ⟨m, hm⟩ := hq
  rw [← hl, ← hm, List.drop_left, List.drop_left, Before.append_iff]

/-! ## Passes -/

variable {w : List ℕ} {ps : List α}

/-- The inner loop permutes the strings. -/
theorem sink_perm (hps : ∀ p ∈ ps, w <+: strings.weights p) (hincr : 0 < incr) {t2 : ℕ}
    (ht2 : t2 + incr < ps.length) (hfuel : t2 < fuel) :
    ∃ ps', sink strings w.length incr fuel t2 ps = some ps' ∧ ps'.Perm ps := by
  induction fuel generalizing t2 ps with
  | zero => exact absurd hfuel (Nat.not_lt_zero t2)
  | succ fuel ih =>
    have hlt : t2 < ps.length := by omega
    have hperm := List.set_set_perm hlt ht2
    rw [sink, List.getElem?_eq_getElem hlt, List.getElem?_eq_getElem ht2, Option.bind_some,
      Option.bind_some, above_of_prefix (hps _ (List.getElem_mem hlt))
        (hps _ (List.getElem_mem ht2)),
      Option.bind_some]
    split_ifs with hgreater hend
    · exact ⟨_, rfl, hperm⟩
    · have hnext :
        t2 - incr + incr < ((ps.set t2 ps[t2 + incr]).set (t2 + incr) ps[t2]).length := by
        rw [hperm.length_eq]
        omega
      obtain ⟨ps', hsink, hperm'⟩ :=
        ih (fun p hp ↦ hps p (hperm.mem_iff.mp hp)) hnext (by omega)
      exact ⟨ps', hsink, hperm'.trans hperm⟩
    · exact ⟨ps, rfl, List.Perm.refl ps⟩

/-- The inner loop with increment 1 inserts a string into sorted ones. -/
theorem sink_insert {as bs cs : List α}
    (hps : ∀ p ∈ as ++ x :: y :: (bs ++ cs), w <+: strings.weights p)
    (hsorted : (as ++ x :: bs).Pairwise strings.Le) (hy : ∀ b ∈ bs, strings.Le y b)
    (hfuel : as.length < fuel) :
    ∃ ss, sink strings w.length 1 fuel as.length (as ++ x :: y :: (bs ++ cs)) = some (ss ++ cs) ∧
      ss.Perm (as ++ x :: y :: bs) ∧ ss.Pairwise strings.Le := by
  induction fuel generalizing as x bs with
  | zero => exact absurd hfuel (Nat.not_lt_zero _)
  | succ fuel ih =>
    have hx := hps x (List.mem_append_right as List.mem_cons_self)
    have hyw := hps y (List.mem_append_right as (List.mem_cons_of_mem x List.mem_cons_self))
    have hfirst : (as ++ x :: y :: (bs ++ cs))[as.length]? = some x := by simp
    have hsecond : (as ++ x :: y :: (bs ++ cs))[as.length + 1]? = some y := by simp
    have hswap : ((as ++ x :: y :: (bs ++ cs)).set as.length y).set (as.length + 1) x =
        as ++ y :: x :: (bs ++ cs) := by simp
    obtain ⟨has, hxbs, hcross⟩ := List.pairwise_append.mp hsorted
    obtain ⟨hxb, hbs⟩ := List.pairwise_cons.mp hxbs
    rw [sink, hfirst, hsecond, Option.bind_some, Option.bind_some, above_of_prefix hx hyw,
      Option.bind_some, hswap]
    split_ifs with hgreater hend
    · have hyx : strings.Le y x := Before.asymm (of_decide_eq_true hgreater)
      have hnil : as = [] := List.eq_nil_of_length_eq_zero (Nat.lt_one_iff.mp hend)
      subst hnil
      refine ⟨y :: x :: bs, rfl, List.Perm.swap x y bs, List.pairwise_cons.mpr ⟨?_, hxbs⟩⟩
      exact List.forall_mem_cons.mpr ⟨hyx, hy⟩
    · have hyx : strings.Le y x := Before.asymm (of_decide_eq_true hgreater)
      obtain ⟨as', x', rfl⟩ := List.eq_nil_or_concat as |>.resolve_left fun hnil ↦
        hend (by rw [hnil]; exact Nat.one_pos)
      have hshift (l : List α) : as'.concat x' ++ l = as' ++ x' :: l := by
        rw [List.concat_eq_append, List.append_assoc, List.singleton_append]
      rw [hshift] at hsorted hps ⊢
      rw [List.length_concat] at hfuel ⊢
      have hmem : ∀ p ∈ as' ++ x' :: y :: ((x :: bs) ++ cs), w <+: strings.weights p := by
        intro p hp
        apply hps p
        simp only [List.mem_append, List.mem_cons] at hp ⊢
        tauto
      obtain ⟨ss, hsink, hperm, hsort⟩ := ih hmem hsorted
        (List.forall_mem_cons.mpr ⟨hyx, hy⟩) (by omega)
      refine ⟨ss, ?_, hperm.trans ?_, hsort⟩
      · rw [Nat.add_sub_cancel]
        exact hsink
      · rw [hshift]
        exact ((List.Perm.swap x y bs).cons x').append_left as'
    · have hxy : strings.Le x y := fun hlt ↦ hgreater (decide_eq_true hlt)
      refine ⟨as ++ x :: y :: bs, by simp, List.Perm.refl _, List.pairwise_append.mpr ?_⟩
      refine ⟨has, ?_, fun a ha c hc ↦ ?_⟩
      · exact List.pairwise_cons.mpr ⟨List.forall_mem_cons.mpr ⟨hxy, hxb⟩,
          List.pairwise_cons.mpr ⟨hy, hbs⟩⟩
      · rcases List.mem_cons.mp hc with rfl | hc
        · exact hcross a ha _ List.mem_cons_self
        · rcases List.mem_cons.mp hc with rfl | hc
          · exact (hcross a ha x List.mem_cons_self).trans hxy
          · exact hcross a ha c (List.mem_cons_of_mem x hc)

/-- A pass permutes the strings. -/
theorem shellPass_perm (hps : ∀ p ∈ ps, w <+: strings.weights p) (hincr : 0 < incr) :
    ∃ ps', shellPass strings w.length incr ps = some ps' ∧ ps'.Perm ps := by
  have hturn (t1 : ℕ) (ps' : List α) (hlow : incr ≤ t1) (hlt : t1 < incr + (ps.length - incr))
      (hperm : ps'.Perm ps) :
      ∃ ps'', sink strings w.length incr (t1 - incr + 1) (t1 - incr) ps' = some ps'' ∧
        ps''.Perm ps := by
    have hlength := hperm.length_eq
    have hend : t1 - incr + incr < ps'.length := by omega
    obtain ⟨ps'', hsink, hperm'⟩ := sink_perm (fun p hp ↦ hps p (hperm.mem_iff.mp hp)) hincr hend
      (Nat.lt_succ_self _)
    exact ⟨ps'', hsink, hperm'.trans hperm⟩
  exact exists_foldlM_range' (fun _ (ps' : List α) ↦ ps'.Perm ps) (List.Perm.refl ps) hturn

/-- The pass with increment 1 sorts the strings. -/
theorem shellPass_one (hps : ∀ p ∈ ps, w <+: strings.weights p) :
    ∃ ps', shellPass strings w.length 1 ps = some ps' ∧ ps'.Perm ps ∧
      ps'.Pairwise strings.Le := by
  have hturn (t1 : ℕ) (ps' : List α) (hlow : 1 ≤ t1) (hlt : t1 < 1 + (ps.length - 1))
      (hinv : ps'.Perm ps ∧ (ps'.take t1).Pairwise strings.Le) :
      ∃ ps'', sink strings w.length 1 (t1 - 1 + 1) (t1 - 1) ps' = some ps'' ∧
        ps''.Perm ps ∧ (ps''.take (t1 + 1)).Pairwise strings.Le := by
    obtain ⟨hperm, hsorted⟩ := hinv
    have hlength := hperm.length_eq
    obtain ⟨as, x, y, cs, rfl, hlen⟩ : ∃ as x y cs, ps' = as ++ x :: y :: cs ∧
        as.length + 1 = t1 := by
      have hbefore : t1 - 1 < ps'.length := by omega
      have hat : t1 - 1 + 1 < ps'.length := by omega
      refine ⟨ps'.take (t1 - 1), ps'[t1 - 1], ps'[t1 - 1 + 1], ps'.drop (t1 - 1 + 1 + 1), ?_, ?_⟩
      · rw [← List.drop_eq_getElem_cons hat, ← List.drop_eq_getElem_cons hbefore,
          List.take_append_drop]
      · rw [List.length_take]
        omega
    have htake : (as ++ x :: y :: cs).take t1 = as ++ [x] := by
      rw [← hlen, List.take_length_add_append]
      rfl
    rw [htake] at hsorted
    have hbegin : ∀ p ∈ as ++ x :: y :: ([] ++ cs), w <+: strings.weights p :=
      fun p hp ↦ hps p (hperm.mem_iff.mp hp)
    obtain ⟨ss, hsink, hperm', hsort⟩ := sink_insert hbegin hsorted
      (fun _ hb ↦ absurd hb List.not_mem_nil) (Nat.lt_succ_self as.length)
    have ht : t1 - 1 = as.length := by omega
    have hss : ss.length = t1 + 1 := by
      rw [hperm'.length_eq, List.length_append, ← hlen]
      rfl
    rw [ht]
    refine ⟨ss ++ cs, hsink, (hperm'.append_right cs).trans ?_, ?_⟩
    · rw [List.append_assoc]
      exact hperm
    · rw [← hss, List.take_left]
      exact hsort
  have hfirst : (ps.take 1).Pairwise strings.Le := by
    cases ps with
    | nil => exact List.Pairwise.nil
    | cons p ps => exact List.pairwise_singleton _ p
  obtain ⟨ps', hpass, hperm, hsorted⟩ := exists_foldlM_range'
    (fun t1 (ps' : List α) ↦ ps'.Perm ps ∧ (ps'.take t1).Pairwise strings.Le)
    ⟨List.Perm.refl ps, hfirst⟩ hturn
  have hlength := hperm.length_eq
  rw [List.take_of_length_le (by omega)] at hsorted
  exact ⟨ps', hpass, hperm, hsorted⟩

/-- `shellsort` sorts strings that begin with the same weights. -/
theorem shellsort_spec (hps : ∀ p ∈ ps, w <+: strings.weights p) :
    ∃ ps', shellsort strings w.length ps = some ps' ∧ ps'.Perm ps ∧ ps'.Pairwise strings.Le := by
  obtain ⟨ps₁, hfirst, hperm₁⟩ := shellPass_perm hps (by decide : 0 < 4)
  obtain ⟨ps₂, hsecond, hperm₂, hsorted⟩ := shellPass_one fun p hp ↦
    hps p (hperm₁.mem_iff.mp hp)
  refine ⟨ps₂, ?_, hperm₂.trans hperm₁, hsorted⟩
  rw [shellsort, rsshellIncrements, List.foldlM_cons, hfirst]
  change (shellPass strings w.length 1 ps₁).bind some = _
  rw [hsecond]
  rfl

end Bsd386.Libc.Radixsort
