import Bsd386.Dosfs.Names

/-!
# The round trip of a DOS name

The text of a directory entry is its name without blanks and, when there is an extension, a dot and
the extension. `unix2dosfn` finds the name and the extension in it again, but it reads the extension
one byte too far.
-/

namespace Bsd386.Dosfs.Names

variable {c : Byte} {w rest : List Byte} {n : ℕ}

theorem padded_trimmed (field : List Byte) (hlength : field.length ≤ n) :
    padded n (trimmed field) = padded n field := by
  induction field using List.reverseRecOn with
  | nil => rfl
  | append_singleton field x ih =>
    have hshorter : field.length + 1 ≤ n := by simpa using hlength
    by_cases hx : x = blank
    · rw [trimmed, List.rdropWhile_concat_pos _ _ _ (by simpa using hx)]
      rw [← trimmed, ih (by omega), padded, padded, hx, List.append_assoc, List.length_append,
        show n - field.length = (n - (field.length + 1)) + 1 by omega, List.replicate_succ]
      rfl
    · rw [trimmed, List.rdropWhile_concat_neg _ _ _ (by simpa using hx)]

theorem padded_trimmed_self (field : List Byte) : padded field.length (trimmed field) = field := by
  rw [padded_trimmed field (Nat.le_refl _), padded, Nat.sub_self, List.replicate_zero,
    List.append_nil]

theorem mem_of_mem_trimmed {field : List Byte} (hmem : c ∈ trimmed field) : c ∈ field :=
  (List.rdropWhile_prefix _ field).subset hmem

theorem length_trimmed_le (field : List Byte) : (trimmed field).length ≤ field.length :=
  (List.rdropWhile_prefix _ field).length_le

/-- A field is used up to its last byte exactly when this is no blank. -/
theorem length_trimmed_eq_iff {field : List Byte} (hlength : field.length = n + 1) :
    (trimmed field).length = n + 1 ↔ field.getD n 0 ≠ blank := by
  induction field using List.reverseRecOn with
  | nil => simp at hlength
  | append_singleton field x ih =>
    have hn : field.length = n := by simpa using hlength
    have hlast : (field ++ [x]).getD n 0 = x := by simp [← hn]
    rw [hlast]
    by_cases hx : x = blank
    · rw [trimmed, List.rdropWhile_concat_pos _ _ _ (by simpa using hx), ← trimmed]
      have hle := length_trimmed_le field
      constructor
      · intro heq
        omega
      · exact fun hne ↦ absurd hx hne
    · rw [trimmed, List.rdropWhile_concat_neg _ _ _ (by simpa using hx)]
      simp [hn, hx]

/-- No result contains a NUL. -/
theorem zero_not_mem_unix2dosfn : 0 ∉ unix2dosfn (w ++ rest) w.length c := by
  have hblank : (0 : Byte) ≠ blank := by decide
  have hpadded : ∀ {n : ℕ} {field : List Byte}, 0 ∉ field → 0 ∉ padded n field := by
    intro n field hfield hmem
    rcases List.mem_append.mp hmem with hmem | hmem
    · exact hfield hmem
    · exact hblank (List.eq_of_mem_replicate hmem)
  have hmap : ∀ field : List Byte, 0 ∉ field → 0 ∉ field.map toDos := by
    intro field hfield hmem
    obtain ⟨x, hx, hzero⟩ := List.mem_map.mp hmem
    exact toDos_ne_zero (fun h ↦ hfield (h ▸ hx)) hzero
  have hE5 : ∀ field : List Byte, 0 ∉ field → 0 ∉ toE5 field := by
    intro field hfield
    cases field with
    | nil => exact hfield
    | cons x field =>
      rw [toE5]
      by_cases hx : x = slotDeleted
      · rw [if_pos hx]
        exact fun hmem ↦ (List.mem_cons.mp hmem).elim (by decide) fun h ↦
          hfield (List.mem_cons_of_mem _ h)
      · rwa [if_neg hx]
  rw [unix2dosfn]
  split_ifs
  · exact hpadded (by decide)
  · exact hpadded (by decide)
  · rw [translate_eq]
    intro hmem
    rcases List.mem_append.mp hmem with hmem | hmem
    · refine hpadded (hE5 _ (hmap _ fun hname ↦ ?_)) hmem
      have hplain := List.mem_takeWhile_imp (List.mem_of_mem_take hname)
      exact absurd hplain (by decide)
    · refine hpadded (hmap _ fun hext ↦ ?_) hmem
      rw [extension] at hext
      split_ifs at hext
      · simpa using List.mem_takeWhile_imp (List.mem_of_mem_take hext)
      · exact absurd hext (List.not_mem_nil)

/-! ## Valid entries -/

/-- The name of a valid entry without its blanks. -/
def nameOf (dn : List Byte) : List Byte := trimmed (dn.take 8)

/-- The extension of an entry without its blanks. -/
def extOf (dn : List Byte) : List Byte := trimmed (dn.drop 8)

/-- The part of the text in front of the dot. -/
def stem (dn : List Byte) : List Byte := fromE5 ((nameOf dn).map toUnix)

/-- The part of the text from the dot on. -/
def suffix (dn : List Byte) : List Byte :=
  if extOf dn = [] then [] else dot :: (extOf dn).map toUnix

namespace Valid

variable {dn : List Byte}

theorem nameOf_cons (hvalid : Valid dn) :
    ∃ x name, nameOf dn = x :: name ∧ x ≠ slotDeleted := by
  cases hname : nameOf dn with
  | nil =>
    have hall := List.rdropWhile_eq_nil_iff.mp
      (show (dn.take 8).rdropWhile (· = blank) = [] from hname)
    cases dn with
    | nil => exact absurd hvalid.length_eq (by simp)
    | cons x dn => exact absurd (by simpa using hall x (by simp)) hvalid.head_blank
  | cons x name =>
    refine ⟨x, name, rfl, ?_⟩
    have hprefix : x :: name <+: dn :=
      hname ▸ (List.rdropWhile_prefix _ (dn.take 8)).trans (List.take_prefix 8 dn)
    obtain ⟨behind, hdn⟩ := hprefix
    have hhead := hvalid.head_deleted
    rwa [← hdn] at hhead

theorem text_eq (hvalid : Valid dn) : dos2unixfn dn = stem dn ++ suffix dn := by
  obtain ⟨x, name, hname, -⟩ := hvalid.nameOf_cons
  rw [dos2unixfn, stem, ← nameOf, hname]
  rfl

theorem no_lower_nameOf (hvalid : Valid dn) (hmem : c ∈ nameOf dn) : islower c = false :=
  hvalid.no_lower c (List.mem_of_mem_take (mem_of_mem_trimmed hmem))

theorem no_lower_extOf (hvalid : Valid dn) (hmem : c ∈ extOf dn) : islower c = false :=
  hvalid.no_lower c (List.mem_of_mem_drop (mem_of_mem_trimmed hmem))

theorem map_extOf (hvalid : Valid dn) : ((extOf dn).map toUnix).map toDos = extOf dn := by
  rw [List.map_map]
  calc (extOf dn).map (toDos ∘ toUnix) = (extOf dn).map id :=
        List.map_congr_left fun c hc ↦ toDos_toUnix (hvalid.no_lower_extOf hc)
    _ = extOf dn := List.map_id _

theorem toE5_stem (hvalid : Valid dn) : toE5 ((stem dn).map toDos) = nameOf dn := by
  obtain ⟨x, name, hname, hx⟩ := hvalid.nameOf_cons
  have hbehind : (name.map toUnix).map toDos = name := by
    rw [List.map_map]
    calc name.map (toDos ∘ toUnix) = name.map id :=
          List.map_congr_left fun c hc ↦
            toDos_toUnix (hvalid.no_lower_nameOf (by simp [hname, hc]))
      _ = name := List.map_id _
  rw [stem, hname, List.map_cons, fromE5, List.map_cons, toE5, hbehind,
    toE5_fromE5_head (hvalid.no_lower_nameOf (by simp [hname])) hx]

theorem stem_plain (hvalid : Valid dn) (hzero : 0 ∉ dn) : ∀ c ∈ stem dn, Plain c := by
  obtain ⟨x, name, hname, -⟩ := hvalid.nameOf_cons
  have hplain : ∀ c ∈ x :: name, Plain (toUnix c) := by
    intro c hc
    have hmem : c ∈ dn :=
      List.mem_of_mem_take (mem_of_mem_trimmed (show c ∈ nameOf dn by rwa [hname]))
    rw [plain_iff, toUnix_eq_zero_iff, toUnix_eq_dot_iff]
    rintro (rfl | rfl)
    · exact hzero hmem
    · exact hvalid.no_dot hmem
  intro c hc
  rw [stem, hname, List.map_cons, fromE5] at hc
  rcases List.mem_cons.mp hc with rfl | hc
  · split_ifs
    · decide
    · exact hplain x (by simp)
  · obtain ⟨y, hy, rfl⟩ := List.mem_map.mp hc
    exact hplain y (by simp [hy])

theorem length_stem_le (dn : List Byte) : (stem dn).length ≤ 8 := by
  have hE5 : ∀ un : List Byte, (fromE5 un).length = un.length := by
    intro un
    cases un with
    | nil => rfl
    | cons x un => rfl
  rw [stem, hE5, List.length_map]
  exact Nat.le_trans (length_trimmed_le _) (List.length_take_le _ _)

theorem unix2dosfn_text (hvalid : Valid dn) (hzero : 0 ∉ dn) :
    unix2dosfn (dos2unixfn dn ++ rest) (dos2unixfn dn).length c =
      translate (dos2unixfn dn ++ rest) (dos2unixfn dn).length c := by
  obtain ⟨x, name, hname, -⟩ := hvalid.nameOf_cons
  have hhead : deref (dos2unixfn dn ++ rest) ≠ dot := by
    have hstem : stem dn ≠ [] := by simp [stem, hname, fromE5]
    cases hs : stem dn with
    | nil => exact absurd hs hstem
    | cons y behind =>
      have hplain := hvalid.stem_plain hzero y (by simp [hs])
      rw [hvalid.text_eq, hs]
      exact fun hdot ↦ plain_dot ((show y = dot from hdot) ▸ hplain)
  exact unix2dosfn_eq_translate (fun h ↦ absurd h hhead) (fun h ↦ absurd h hhead)

/-- What comes back of the text of a valid entry. -/
theorem back (hvalid : Valid dn) (hzero : 0 ∉ dn) :
    unix2dosfn (dos2unixfn dn ++ rest) (dos2unixfn dn).length c =
      dn.take 8 ++ padded 3 ((extension (suffix dn) rest).map toDos) := by
  have hplain := hvalid.stem_plain hzero
  have hstop : (suffix dn).takeWhile Plain = [] ∧ (suffix dn).dropWhile Plain = suffix dn := by
    unfold suffix
    split_ifs
    · exact ⟨rfl, rfl⟩
    · exact ⟨List.takeWhile_cons_of_neg plain_dot, List.dropWhile_cons_of_neg plain_dot⟩
  rw [hvalid.unix2dosfn_text hzero, translate_eq, hvalid.text_eq,
    List.takeWhile_append_of_pos hplain, List.dropWhile_append_of_pos hplain, hstop.1, hstop.2,
    List.append_nil, List.take_of_length_le (length_stem_le dn), hvalid.toE5_stem, nameOf]
  have hlength : (dn.take 8).length = 8 := by simp [hvalid.length_eq]
  congr 1
  simpa [hlength] using padded_trimmed_self (dn.take 8)

theorem padded_extOf (hvalid : Valid dn) : padded 3 (extOf dn) = dn.drop 8 := by
  have hlength : (dn.drop 8).length = 3 := by simp [hvalid.length_eq]
  simpa [hlength, extOf] using padded_trimmed_self (dn.drop 8)

theorem extOf_full_iff (hvalid : Valid dn) : (extOf dn).length = 3 ↔ dn.getD 10 0 ≠ blank := by
  have hlength : (dn.drop 8).length = 2 + 1 := by simp [hvalid.length_eq]
  have hlast : (dn.drop 8).getD 2 0 = dn.getD 10 0 := by simp [List.getD_eq_getElem?_getD]
  rw [← hlast]
  exact length_trimmed_eq_iff hlength

theorem extOf_nil_iff (hvalid : Valid dn) : extOf dn = [] ↔ dn.drop 8 = padded 3 [] := by
  constructor
  · intro hext
    rw [← hvalid.padded_extOf, hext]
  · intro hblank
    rw [extOf, hblank]
    decide

/-- The extension that comes back is the entry's own unless the byte behind the component is taken
for a part of it. -/
theorem extension_back_iff (hvalid : Valid dn) (hzero : 0 ∉ dn)
    (hrest : deref rest = 0 ∨ deref rest = slash) :
    padded 3 ((extension (suffix dn) rest).map toDos) = padded 3 (extOf dn) ↔
      dn.drop 8 = padded 3 [] ∨ dn.getD 10 0 ≠ blank ∨ deref rest = 0 := by
  by_cases hext : extOf dn = []
  · have hnone : extension (suffix dn) rest = [] := by
      rw [suffix, if_pos hext, extension, if_neg (by decide)]
    exact iff_of_true (by rw [hnone, hext]; rfl) (Or.inl (hvalid.extOf_nil_iff.mp hext))
  · have hall : ∀ x ∈ (extOf dn).map toUnix, decide (x ≠ 0) = true := by
      intro x hx
      obtain ⟨y, hy, rfl⟩ := List.mem_map.mp hx
      rw [decide_eq_true_iff, Ne, toUnix_eq_zero_iff]
      rintro rfl
      exact hzero (List.mem_of_mem_drop (mem_of_mem_trimmed hy))
    have hle : (extOf dn).length ≤ 3 := by
      have htrimmed := length_trimmed_le (dn.drop 8)
      rw [List.length_drop, hvalid.length_eq] at htrimmed
      exact htrimmed
    have hcopied : (extension (suffix dn) rest).map toDos =
        (extOf dn ++ ((rest.take 1).takeWhile (· ≠ 0)).map toDos).take 3 := by
      rw [suffix, if_neg hext, extension, deref_cons, if_pos rfl, List.tail_cons,
        List.takeWhile_append_of_pos hall, List.map_take, List.map_append, hvalid.map_extOf]
    rw [hcopied, hvalid.extOf_nil_iff.not.mp hext |> (or_iff_right ·), ← hvalid.extOf_full_iff]
    cases rest with
    | nil => exact iff_of_true (by simp [List.take_of_length_le hle]) (Or.inr rfl)
    | cons x rest =>
      rcases hrest with hx | hx
      · have hx' : x = 0#8 := hx
        exact iff_of_true (by simp [hx', List.take_of_length_le hle]) (Or.inr hx)
      · have hx' : x = slash := hx
        subst hx'
        have hbehind : ((List.take 1 (slash :: rest)).takeWhile (· ≠ 0)).map toDos = [slash] := rfl
        rw [hbehind]
        by_cases hfull : (extOf dn).length = 3
        · rw [List.take_append_of_le_length (Nat.le_of_eq hfull.symm), List.take_of_length_le hle]
          exact iff_of_true rfl (Or.inl hfull)
        · refine iff_of_false (fun heq ↦ ?_) (by simp [hfull, slash])
          rw [List.take_of_length_le (by simp; omega)] at heq
          have hroom : 3 - (extOf dn).length = (3 - ((extOf dn).length + 1)) + 1 := by omega
          rw [padded, padded, hroom, List.replicate_succ, List.append_assoc] at heq
          have hbyte : slash = blank := congrArg deref (List.append_cancel_left heq)
          exact absurd hbyte (by decide)

/-- Exactly when the text gives the entry back. -/
theorem roundTrip_iff (hvalid : Valid dn) (hrest : deref rest = 0 ∨ deref rest = slash) :
    unix2dosfn (dos2unixfn dn ++ rest) (dos2unixfn dn).length c = dn ↔
      0 ∉ dn ∧ (dn.drop 8 = padded 3 [] ∨ dn.getD 10 0 ≠ blank ∨ deref rest = 0) := by
  by_cases hzero : 0 ∈ dn
  · refine iff_of_false (fun heq ↦ ?_) fun h ↦ h.1 hzero
    exact zero_not_mem_unix2dosfn (heq ▸ hzero)
  · rw [hvalid.back hzero, ← hvalid.extension_back_iff hzero hrest, hvalid.padded_extOf,
      and_iff_right hzero]
    conv_lhs => rhs; rw [← List.take_append_drop 8 dn]
    exact List.append_right_inj _

end Valid

/-! ## The main result -/

/-- The entry `A.C`. -/
def entry : List Byte :=
  [0x41, blank, blank, blank, blank, blank, blank, blank, 0x43, blank, blank]

theorem entry_valid : Valid entry where
  length_eq := rfl
  no_lower := by decide
  no_dot := by decide
  head_blank := by decide
  head_empty := by decide
  head_deleted := by decide

/-- The component `a.c` in front of a slash gets the slash into its extension, and `.` in front of a
slash is not the entry of the directory itself. -/
theorem slash_in_name :
    Valid entry ∧
      unix2dosfn (dos2unixfn entry ++ [slash]) (dos2unixfn entry).length 0 =
        entry.set 9 slash ∧
      unix2dosfn (dos2unixfn entry) (dos2unixfn entry).length 0 = entry ∧
      unix2dosfn [dot, slash] 1 0 ≠ padded 11 [dot] :=
  ⟨entry_valid, by decide, by decide, by decide⟩

/-- Exactly when an entry comes back from its text, which components give a name that does not
depend on the bytes behind them, and when the two special names are recognised. -/
theorem names_exact (c : Byte) :
    (∀ dn rest, Valid dn → (deref rest = 0 ∨ deref rest = slash) →
      (unix2dosfn (dos2unixfn dn ++ rest) (dos2unixfn dn).length c = dn ↔
        0 ∉ dn ∧ (dn.drop 8 = padded 3 [] ∨ dn.getD 10 0 ≠ blank ∨ deref rest = 0))) ∧
      (∀ w, (∀ rest rest',
          unix2dosfn (w ++ rest) w.length c = unix2dosfn (w ++ rest') w.length c) ↔
        w ≠ [] ∧ ¬Leaks w) ∧
      (∀ rest, unix2dosfn (dot :: rest) 1 c = padded 11 [dot] ↔ deref rest = 0) ∧
      ∀ rest, unix2dosfn (dot :: dot :: rest) 2 c = padded 11 [dot, dot] ↔ deref rest = 0 :=
  ⟨fun _ _ hvalid hrest ↦ hvalid.roundTrip_iff hrest, fun _ ↦ determined_iff,
    fun _ ↦ dot_entry_iff, fun _ ↦ dotdot_entry_iff⟩

theorem names_exact_entry :
    Valid entry ∧
      unix2dosfn (dos2unixfn entry ++ [slash]) (dos2unixfn entry).length 0 ≠ entry :=
  ⟨entry_valid, fun heq ↦
    absurd (((names_exact 0).1 entry [slash] entry_valid (Or.inr rfl)).mp heq).2 (by decide)⟩

end Bsd386.Dosfs.Names
