import Mathlib
import RegAlloc.Text.Listing
import RegAlloc.Text.Numeral
import RegAlloc.Text.Piece

/-!
# The pieces of a written text

A text that was put together from pieces is cut into these pieces again: at separators, at the ends
of lines, behind words. The blanks around a piece have no meaning, so a piece is taken as `trim`
leaves it.
-/

namespace RegAlloc.Text

variable {as bs cs : List Char} {c sep : Char} {p : Char → Bool}

/-! ## Blanks -/

/-- The other characters of ASCII are not blank. -/
theorem isBlank_eq_false (hlo : 33 ≤ c.toNat) (hhi : c.toNat ≤ 126) : isBlank c = false := by
  simp only [isBlank, blankRanges, List.any_cons, List.any_nil, Bool.or_eq_false_iff,
    Bool.and_eq_false_iff, decide_eq_false_iff_not, and_true]
  omega

theorem isBlank_of_mem_space (h : c ∈ [' ']) : isBlank c = true := by
  rw [List.mem_singleton.1 h]
  rfl

theorem mem_of_mem_trim (h : c ∈ trim cs) : c ∈ cs :=
  (List.dropWhile_sublist _).subset
    (List.mem_reverse.1 ((List.dropWhile_sublist _).subset (List.mem_reverse.1 h)))

theorem exists_trimEnd_append (cs : List Char) :
    ∃ bs, cs = trimEnd cs ++ bs ∧ ∀ c ∈ bs, isBlank c = true := by
  refine ⟨(cs.reverse.takeWhile isBlank).reverse, ?_, fun c hc ↦ ?_⟩
  · rw [trimEnd, ← List.reverse_append, List.takeWhile_append_dropWhile, List.reverse_reverse]
  · exact List.mem_takeWhile_imp (List.mem_reverse.1 hc)

/-- A text is what is left of it between blanks. -/
theorem exists_append_trim_append (cs : List Char) : ∃ as bs, cs = as ++ (trim cs ++ bs) ∧
    (∀ c ∈ as, isBlank c = true) ∧ ∀ c ∈ bs, isBlank c = true := by
  obtain ⟨bs, hbs, hblank⟩ := exists_trimEnd_append (trimStart cs)
  refine ⟨cs.takeWhile isBlank, bs, ?_, fun c hc ↦ List.mem_takeWhile_imp hc, hblank⟩
  rw [trim, ← hbs, trimStart, List.takeWhile_append_dropWhile]

theorem trim_append_left (h : ∀ c ∈ as, isBlank c = true) (cs : List Char) :
    trim (as ++ cs) = trim cs := by
  rw [trim, trimStart, List.dropWhile_append_of_pos h, trim, trimStart]

theorem trimEnd_append_right (h : ∀ c ∈ bs, isBlank c = true) (cs : List Char) :
    trimEnd (cs ++ bs) = trimEnd cs := by
  rw [trimEnd, List.reverse_append, List.dropWhile_append_of_pos, trimEnd]
  exact fun c hc ↦ h c (List.mem_reverse.1 hc)

theorem trim_append_right (h : ∀ c ∈ bs, isBlank c = true) (cs : List Char) :
    trim (cs ++ bs) = trim cs := by
  rw [trim, trimStart, List.dropWhile_append]
  split
  · rename_i hcs
    rw [List.isEmpty_iff] at hcs
    rw [trim, trimStart, hcs, ← trimEnd_append_right h [], List.nil_append]
    obtain ⟨front, hfront⟩ := List.dropWhile_suffix isBlank (l := bs)
    have hdrop : ∀ c ∈ bs.dropWhile isBlank, isBlank c = true :=
      fun c hc ↦ h c (hfront ▸ List.mem_append_right _ hc)
    exact (trimEnd_append_right hdrop []).trans (trimEnd_append_right h []).symm
  · exact trimEnd_append_right h _

/-! ## The last character that is not blank -/

/-- The last character that is not blank. -/
def lastInk? (cs : List Char) : Option Char :=
  cs.reverse.find? fun c ↦ !isBlank c

theorem lastInk?_append (as bs : List Char) :
    lastInk? (as ++ bs) = (lastInk? bs).or (lastInk? as) := by
  rw [lastInk?, List.reverse_append, List.find?_append, lastInk?, lastInk?]

theorem lastInk?_eq_none_iff : lastInk? cs = none ↔ ∀ c ∈ cs, isBlank c = true := by
  simp [lastInk?]

theorem lastInk?_concat (h : isBlank c = false) (cs : List Char) :
    lastInk? (cs ++ [c]) = some c := by
  simp [lastInk?, h]

theorem getLast?_trimEnd (cs : List Char) : (trimEnd cs).getLast? = lastInk? cs := by
  rw [trimEnd, List.getLast?_reverse, lastInk?, List.find?_eq_head?_dropWhile_not]
  simp only [Bool.not_not]

theorem getLast?_trim (cs : List Char) : (trim cs).getLast? = lastInk? cs := by
  have hblank : lastInk? (cs.takeWhile isBlank) = none :=
    lastInk?_eq_none_iff.2 fun c hc ↦ List.mem_takeWhile_imp hc
  calc (trim cs).getLast? = lastInk? (trimStart cs) := getLast?_trimEnd _
    _ = lastInk? (cs.takeWhile isBlank ++ trimStart cs) := by
      rw [lastInk?_append, hblank, Option.or_none]
    _ = lastInk? cs := by rw [trimStart, List.takeWhile_append_dropWhile]

theorem trim_eq_nil_iff : trim cs = [] ↔ lastInk? cs = none := by
  rw [← getLast?_trim, List.getLast?_eq_none_iff]

theorem isBlank_of_lastInk?_eq_some (h : lastInk? cs = some c) : isBlank c = false := by
  simpa using List.find?_some h

theorem trimEnd_append (h : lastInk? bs ≠ none) (as : List Char) :
    trimEnd (as ++ bs) = as ++ trimEnd bs := by
  have hne : bs.reverse.dropWhile isBlank ≠ [] := by
    intro hnil
    rw [← getLast?_trimEnd, trimEnd, hnil] at h
    exact h rfl
  rw [trimEnd, List.reverse_append, List.dropWhile_append, if_neg (by simpa using hne), trimEnd,
    List.reverse_append, List.reverse_reverse]

/-! ## Texts without blanks around them -/

theorem isBlank_of_head?_trim (h : (trim cs).head? = some c) : isBlank c = false := by
  obtain ⟨bs, hbs, -⟩ := exists_trimEnd_append (trimStart cs)
  have hhead : (trimStart cs).head? = some c := by
    rw [hbs, List.head?_append, show trimEnd (trimStart cs) = trim cs from rfl, h, Option.some_or]
  have hnot := List.head?_dropWhile_not isBlank cs
  rw [show cs.dropWhile isBlank = trimStart cs from rfl, hhead] at hnot
  exact hnot

theorem trim_eq_trimEnd (h : ∀ c, cs.head? = some c → isBlank c = false) :
    trim cs = trimEnd cs := by
  cases cs with
  | nil => rfl
  | cons c cs =>
    rw [trim, trimStart, List.dropWhile_cons_of_neg (by rw [h c rfl]; decide)]

theorem trim_eq_self (hhead : ∀ c, cs.head? = some c → isBlank c = false)
    (hlast : ∀ c, cs.getLast? = some c → isBlank c = false) : trim cs = cs := by
  rw [trim_eq_trimEnd hhead, trimEnd]
  rcases List.eq_nil_or_concat cs with rfl | ⟨cs, c, rfl⟩
  · rfl
  · have hc := hlast c (by simp)
    simp [hc]

@[simp]
theorem trim_trim (cs : List Char) : trim (trim cs) = trim cs :=
  trim_eq_self (fun _ ↦ isBlank_of_head?_trim) fun _ hc ↦
    isBlank_of_lastInk?_eq_some ((getLast?_trim cs).symm.trans hc)

theorem trim_trimEnd (cs : List Char) : trim (trimEnd cs) = trim cs := by
  obtain ⟨bs, hbs, hblank⟩ := exists_trimEnd_append cs
  conv_rhs => rw [hbs, trim_append_right hblank]

/-- Blanks between two texts are not around them. -/
theorem trim_append_eq_self (has : trim as = as)
    (hlast : ∀ c, bs.getLast? = some c → isBlank c = false)
    (hbs : ∀ c, bs.head? = some c → isBlank c = false) (hne : bs ≠ []) :
    trim (as ++ bs) = as ++ bs := by
  refine trim_eq_self (fun c hc ↦ ?_) fun c hc ↦ ?_
  · cases as with
    | nil => exact hbs c hc
    | cons a as =>
      have hhead : (trim (a :: as)).head? = some c := by
        rw [has]
        exact hc
      exact isBlank_of_head?_trim hhead
  · rw [List.getLast?_append_of_ne_nil _ hne] at hc
    exact hlast c hc

/-! ## Fields -/

theorem fields_ne_nil (sep : Char) (cs : List Char) : fields sep cs ≠ [] := by
  cases cs with
  | nil => exact List.cons_ne_nil _ _
  | cons c cs =>
    unfold fields
    split
    · exact List.cons_ne_nil _ _
    · split <;> exact List.cons_ne_nil _ _

theorem fields_cons_self (sep : Char) (cs : List Char) :
    fields sep (sep :: cs) = [] :: fields sep cs := by
  rw [fields, if_pos rfl]

theorem fields_cons_of_ne (h : c ≠ sep) (cs : List Char) :
    fields sep (c :: cs) = (fields sep cs).modifyHead (c :: ·) := by
  rw [fields, if_neg h]
  cases hcs : fields sep cs with
  | nil => exact absurd hcs (fields_ne_nil sep cs)
  | cons field rest => rfl

theorem fields_append (h : sep ∉ as) (bs : List Char) :
    fields sep (as ++ bs) = (fields sep bs).modifyHead (as ++ ·) := by
  induction as with
  | nil =>
    cases hbs : fields sep bs with
    | nil => exact absurd hbs (fields_ne_nil sep bs)
    | cons field rest => rw [List.nil_append, hbs, List.modifyHead_cons, List.nil_append]
  | cons a as ih =>
    rw [List.mem_cons, not_or] at h
    rw [List.cons_append, fields_cons_of_ne (Ne.symm h.1), ih h.2, List.modifyHead_modifyHead]
    rfl

theorem fields_append_cons (h : sep ∉ as) (bs : List Char) :
    fields sep (as ++ sep :: bs) = as :: fields sep bs := by
  rw [fields_append h, fields_cons_self, List.modifyHead_cons, List.append_nil]

theorem fields_of_notMem (h : sep ∉ cs) : fields sep cs = [cs] := by
  have := fields_append h []
  rwa [List.append_nil, fields, List.modifyHead_cons, List.append_nil] at this

theorem mem_of_mem_fields {field : List Char} (h : field ∈ fields sep cs) :
    sep ∉ field ∧ field ⊆ cs := by
  induction cs generalizing field with
  | nil =>
    cases List.mem_singleton.1 h
    exact ⟨List.not_mem_nil, List.Subset.refl _⟩
  | cons c cs ih =>
    by_cases hc : c = sep
    · rw [hc, fields_cons_self, List.mem_cons] at h
      rcases h with rfl | h
      · exact ⟨List.not_mem_nil, List.nil_subset _⟩
      · exact ⟨(ih h).1, List.subset_cons_of_subset c (ih h).2⟩
    · rw [fields_cons_of_ne hc] at h
      cases hcs : fields sep cs with
      | nil => exact absurd hcs (fields_ne_nil sep cs)
      | cons first rest =>
        rw [hcs] at h ih
        rcases List.mem_cons.1 h with rfl | h
        · obtain ⟨hsep, hsub⟩ := ih List.mem_cons_self
          refine ⟨?_, List.cons_subset_cons c hsub⟩
          rw [List.mem_cons, not_or]
          exact ⟨Ne.symm hc, hsep⟩
        · obtain ⟨hsep, hsub⟩ := ih (List.mem_cons_of_mem _ h)
          exact ⟨hsep, List.subset_cons_of_subset c hsub⟩

/-- The last field goes to the end of the text. -/
theorem exists_fields_eq_concat (sep : Char) (cs : List Char) : ∃ init last,
    fields sep cs = init ++ [last] ∧ last <:+ cs ∧ (init = [] → last = cs) ∧
      ∀ bs, sep ∉ bs → fields sep (cs ++ bs) = init ++ [last ++ bs] := by
  induction cs with
  | nil => exact ⟨[], [], rfl, List.suffix_refl _, fun _ ↦ rfl, fun bs hbs ↦ fields_of_notMem hbs⟩
  | cons c cs ih =>
    obtain ⟨init, last, hfields, hsuffix, hall, happend⟩ := ih
    by_cases hc : c = sep
    · refine ⟨[] :: init, last, ?_, hsuffix.trans (List.suffix_cons c cs),
        fun h ↦ absurd h (List.cons_ne_nil _ _), fun bs hbs ↦ ?_⟩
      · rw [hc, fields_cons_self, hfields, List.cons_append]
      · rw [hc, List.cons_append, fields_cons_self, happend bs hbs, List.cons_append]
    · cases init with
      | nil =>
        cases hall rfl
        refine ⟨[], c :: cs, ?_, List.suffix_refl _, fun _ ↦ rfl, fun bs hbs ↦ ?_⟩
        · rw [fields_cons_of_ne hc, hfields]
          rfl
        · rw [List.cons_append, fields_cons_of_ne hc, happend bs hbs]
          rfl
      | cons first init =>
        refine ⟨(c :: first) :: init, last, ?_, hsuffix.trans (List.suffix_cons c cs),
          fun h ↦ absurd h (List.cons_ne_nil _ _), fun bs hbs ↦ ?_⟩
        · rw [fields_cons_of_ne hc, hfields]
          rfl
        · rw [List.cons_append, fields_cons_of_ne hc, happend bs hbs]
          rfl

section Trimmed

variable (hsep : isBlank sep = false)

include hsep

theorem notMem_of_blank (h : ∀ c ∈ cs, isBlank c = true) : sep ∉ cs := by
  intro hmem
  rw [h sep hmem] at hsep
  cases hsep

theorem map_trim_fields_append_left (h : ∀ c ∈ as, isBlank c = true) (cs : List Char) :
    (fields sep (as ++ cs)).map trim = (fields sep cs).map trim := by
  rw [fields_append (notMem_of_blank hsep h)]
  cases fields sep cs with
  | nil => rfl
  | cons first rest =>
    rw [List.modifyHead_cons, List.map_cons, trim_append_left h, List.map_cons]

theorem map_trim_fields_append_right (h : ∀ c ∈ bs, isBlank c = true) (cs : List Char) :
    (fields sep (cs ++ bs)).map trim = (fields sep cs).map trim := by
  obtain ⟨init, last, hfields, -, -, happend⟩ := exists_fields_eq_concat sep cs
  rw [happend bs (notMem_of_blank hsep h), hfields, List.map_append, List.map_append,
    List.map_singleton, trim_append_right h, List.map_singleton]

/-- Blanks around the whole text belong to its first and its last field. -/
theorem map_trim_fields_trim (cs : List Char) :
    (fields sep (trim cs)).map trim = (fields sep cs).map trim := by
  obtain ⟨as, bs, hcs, has, hbs⟩ := exists_append_trim_append cs
  conv_rhs => rw [hcs]
  rw [map_trim_fields_append_left hsep has, map_trim_fields_append_right hsep hbs]

end Trimmed

/-- Texts with commas between them are its fields, up to blanks. -/
theorem map_trim_fields_intercalate {texts : List (List Char)} (hne : texts ≠ [])
    (h : ∀ t ∈ texts, trim t = t ∧ ',' ∉ t) :
    (fields ',' ([',', ' '].intercalate texts)).map trim = texts := by
  induction texts with
  | nil => exact absurd rfl hne
  | cons t texts ih =>
    obtain ⟨htrim, hcomma⟩ := h t List.mem_cons_self
    cases texts with
    | nil => rw [List.intercalate_singleton, fields_of_notMem hcomma, List.map_singleton, htrim]
    | cons t' texts =>
      have htexts := ih (List.cons_ne_nil _ _) fun x hx ↦ h x (List.mem_cons_of_mem _ hx)
      have hcut : [',', ' '].intercalate (t :: t' :: texts) =
          t ++ ',' :: ([' '] ++ [',', ' '].intercalate (t' :: texts)) := by
        rw [List.intercalate_cons_cons, List.append_assoc]
        rfl
      rw [hcut, fields_append_cons hcomma, List.map_cons, htrim,
        map_trim_fields_append_left rfl fun _ ↦ isBlank_of_mem_space, htexts]

/-- Lines with their ends are the lines of the text. -/
theorem fields_unlines {lines : List String} (h : ∀ l ∈ lines, '\n' ∉ l.toList) :
    fields '\n' (unlines lines).toList = lines.map String.toList ++ [[]] := by
  induction lines with
  | nil => rfl
  | cons l lines ih =>
    have hl := h l List.mem_cons_self
    have hcut : (unlines (l :: lines)).toList = l.toList ++ '\n' :: (unlines lines).toList := by
      simp [unlines, String.toList_join]
    rw [hcut, fields_append_cons hl, ih fun x hx ↦ h x (List.mem_cons_of_mem _ hx)]
    rfl

/-! ## Cuts -/

theorem cut?_append_cons (h : ∀ a ∈ as, p a = false) (hc : p c = true) (bs : List Char) :
    cut? p (as ++ c :: bs) = some (as, bs) := by
  induction as with
  | nil => rw [List.nil_append, cut?, if_pos hc]
  | cons a as ih =>
    rw [List.cons_append, cut?, if_neg (by rw [h a List.mem_cons_self]; decide),
      ih fun x hx ↦ h x (List.mem_cons_of_mem _ hx)]
    rfl

theorem cut?_eq_none (h : ∀ a ∈ as, p a = false) : cut? p as = none := by
  induction as with
  | nil => rfl
  | cons a as ih =>
    rw [cut?, if_neg (by rw [h a List.mem_cons_self]; decide),
      ih fun x hx ↦ h x (List.mem_cons_of_mem _ hx)]
    rfl

theorem eq_append_cons_of_cut? (h : cut? p cs = some (as, bs)) :
    ∃ c, cs = as ++ c :: bs ∧ ∀ a ∈ as, p a = false := by
  induction cs generalizing as with
  | nil => cases h
  | cons c cs ih =>
    rw [cut?] at h
    split at h
    · cases h
      exact ⟨c, rfl, fun a ha ↦ absurd ha List.not_mem_nil⟩
    · rename_i hc
      obtain ⟨⟨as', bs'⟩, hcut, heq⟩ := Option.map_eq_some_iff.1 h
      cases heq
      obtain ⟨d, rfl, has⟩ := ih hcut
      refine ⟨d, rfl, fun a ha ↦ ?_⟩
      rcases List.mem_cons.1 ha with rfl | ha
      · exact eq_false_of_ne_true hc
      · exact has a ha

theorem before?_concat (c : Char) (cs : List Char) : before? c (cs ++ [c]) = some cs := by
  rw [before?, List.getLast?_concat, if_pos rfl, List.dropLast_concat]

theorem eq_concat_of_before? (h : before? c cs = some as) : cs = as ++ [c] := by
  unfold before? at h
  split at h
  · rename_i hlast
    cases h
    exact (List.dropLast_append_getLast? c hlast).symm
  · cases h

theorem before?_eq_none_iff : before? c cs = none ↔ cs.getLast? ≠ some c := by
  unfold before?
  split <;> simp_all

theorem after?_append (as cs : List Char) : after? as (as ++ cs) = some cs := by
  induction as with
  | nil => rfl
  | cons a as ih => rw [List.cons_append, after?, if_pos rfl, ih]

theorem eq_append_of_after? (h : after? as cs = some bs) : cs = as ++ bs := by
  induction as generalizing cs with
  | nil =>
    cases h
    rfl
  | cons a as ih =>
    cases cs with
    | nil => cases h
    | cons c cs =>
      rw [after?] at h
      split at h
      · rename_i hac
        rw [hac, ih h, List.cons_append]
      · cases h

theorem uncommented_of_notMem (h : '#' ∉ cs) : uncommented cs = cs := by
  rw [uncommented, List.takeWhile_eq_self_iff]
  intro c hc
  exact decide_eq_true fun heq ↦ h (heq ▸ hc)

/-! ## Numerals -/

theorem toNat_of_isDigit (h : c.isDigit = true) : 48 ≤ c.toNat ∧ c.toNat ≤ 57 := by
  simp only [Char.isDigit, Bool.and_eq_true, decide_eq_true_eq] at h
  exact h

theorem digit?_of_isDigit (h : c.isDigit = true) : digit? 10 c = some (c.toNat - '0'.toNat) := by
  have hle : '0' ≤ c ∧ c ≤ '9' := toNat_of_isDigit h
  have hlt : c.toNat - '0'.toNat < 10 := by
    have : '0'.toNat = 48 := rfl
    have := toNat_of_isDigit h
    omega
  rw [digit?, if_pos hle, Option.filter_some, if_pos (decide_eq_true hlt)]

theorem digits?_of_isDigit (h : ∀ c ∈ cs, c.isDigit = true) (acc : Nat) :
    digits? 10 acc cs = some (Nat.ofDigitChars 10 cs acc) := by
  induction cs generalizing acc with
  | nil => rfl
  | cons c cs ih =>
    rw [digits?, digit?_of_isDigit (h c List.mem_cons_self), Option.bind_some,
      ih fun x hx ↦ h x (List.mem_cons_of_mem _ hx), Nat.mul_comm acc 10]
    rfl

theorem isDigit_of_mem_repr {n : Nat} (h : c ∈ n.repr.toList) : c.isDigit = true := by
  rw [Nat.toList_repr] at h
  exact Nat.isDigit_of_mem_toDigits (by decide) (by decide) h

theorem natural?_repr (n : Nat) : natural? 10 n.repr.toList = some n := by
  have hne : n.repr.toList.isEmpty = false := by
    rw [Nat.toList_repr]
    simp
  rw [natural?, if_neg (by rw [hne]; decide), digits?_of_isDigit fun c ↦ isDigit_of_mem_repr,
    Nat.toList_repr, Nat.ofDigitChars_toDigits (by decide) (by decide)]

end RegAlloc.Text
