import Mathlib
import RegAlloc.Program.Printer
import RegAlloc.Proofs.Program
import RegAlloc.Proofs.Reading.Instr

/-!
# Programs that are written and read

Writing a program and reading the text gives the program back, for every program that was read from
some text. The text may have been spelled in another way: with comments, other blanks, other
spellings of numbers, or globals between functions. What was read from it does not depend on the
spelling any more.
-/

namespace RegAlloc

open Text

/-! ## Lines -/

/-- What is read of a written line. -/
def content (line : String) : List Char :=
  trim (uncommented line.toList)

theorem content_eq_trim {line : String} (h : '#' ∉ line.toList) :
    content line = trim line.toList := by
  rw [content, uncommented_of_notMem h]

/-- The lines that are read have neither comments nor blanks around them. -/
theorem isPlain_of_mem_contentLines {text : List Char} {l : Position × List Char}
    (h : l ∈ contentLines text) : IsPlain l.2 ∧ trim l.2 = l.2 := by
  obtain ⟨⟨line, k⟩, hline, hl⟩ := List.mem_filterMap.1 h
  have hmem : line ∈ fields '\n' text := List.fst_mem_of_mem_zipIdx hline
  have hcontent : l.2 = trim (uncommented line) := by
    simp only at hl
    split at hl
    · cases hl
    · cases hl
      rfl
  have hplain : IsPlain (uncommented line) := by
    refine ⟨fun hc ↦ ?_, fun hc ↦ (mem_of_mem_fields hmem).1 (List.takeWhile_subset _ hc)⟩
    have := List.mem_takeWhile_imp hc
    simp at this
  rw [hcontent]
  exact ⟨hplain.trim, trim_trim _⟩

/-- The lines that are read are those which are not blank. -/
theorem map_snd_contentLines (text : List Char) : (contentLines text).map Prod.snd =
    ((fields '\n' text).map fun line ↦ trim (uncommented line)).filter (!·.isEmpty) := by
  unfold contentLines
  rw [List.map_filterMap]
  conv_rhs => rw [← List.zipIdx_map_fst 0 (fields '\n' text), List.map_map,
    ← List.filterMap_eq_filter, List.filterMap_map]
  refine List.filterMap_congr fun l _ ↦ ?_
  obtain ⟨line, k⟩ := l
  simp only [Function.comp_apply, Option.guard]
  cases (trim (uncommented line)).isEmpty <;> rfl

theorem map_snd_contentLines_unlines {lines : List String} (h : ∀ l ∈ lines, '\n' ∉ l.toList) :
    (contentLines (unlines lines).toList).map Prod.snd =
      (lines.map content).filter (!·.isEmpty) := by
  rw [map_snd_contentLines, fields_unlines h, List.map_append, List.map_map, List.filter_append]
  exact List.append_nil _

/-! ## Globals, labels and functions -/

/-- The global can be read from what is written for it. -/
structure Global.IsLegible (g : Global) : Prop where
  trimmed : trim g.name.toList = g.name.toList
  plain : IsPlain g.name.toList
  equals : '=' ∉ g.name.toList

/-- The label is a word, and the instructions are legible. -/
structure Block.IsLegible (catalog : Catalog) (b : Block) : Prop where
  ne_nil : b.label.toList ≠ []
  blank : ∀ c ∈ b.label.toList, isBlank c = false
  plain : IsPlain b.label.toList
  code : ∀ i ∈ b.code, i.IsLegible catalog

/-- The name is not empty, and the blocks are legible. -/
structure Function.IsLegible (catalog : Catalog) (f : Function) : Prop where
  ne_nil : f.name.toList ≠ []
  trimmed : trim f.name.toList = f.name.toList
  plain : IsPlain f.name.toList
  blocks : ∀ b ∈ f.blocks, b.IsLegible catalog

/-- The sizes that are reserved when the instructions are read. -/
def reservedSizes (is : List Instr) : Array Nat :=
  (is.foldl (fun r i ↦ r.reserveRegs (i.uses ++ i.defs)) ({ name := "" } : Routine)).sizes

/-- The function with the given name and blocks, as it is read. -/
def Function.asRead (name : String) (blocks : List Block) : Function where
  name := name
  blocks := blocks
  sizes := reservedSizes (blocks.flatMap Block.code)

theorem Routine.sizes_reserveRegs_congr {f g : Routine} (h : f.sizes = g.sizes) (rs : List Reg) :
    (f.reserveRegs rs).sizes = (g.reserveRegs rs).sizes := by
  induction rs generalizing f g with
  | nil => exact h
  | cons ρ rs ih =>
    refine ih ?_
    cases ρ with
    | virt v =>
      have hcount : f.vregCount = g.vregCount := congrArg Array.size h
      by_cases hv : v < g.vregCount
      · simp only [hcount, if_pos hv, h]
      · simp only [hcount, if_neg hv, reserve, h]
    | phys r => exact h

theorem Routine.name_reserveRegs (f : Routine) (rs : List Reg) :
    (f.reserveRegs rs).name = f.name := by
  induction rs generalizing f with
  | nil => rfl
  | cons ρ rs ih =>
    refine (ih _).trans ?_
    cases ρ with
    | virt v =>
      simp only
      split_ifs
      · rfl
      · rfl
    | phys r => rfl

/-- An instruction is added to the last block. -/
theorem Function.append?_asRead (name : String) (blocks : List Block) (b : Block) (i : Instr) :
    (asRead name (blocks ++ [b])).toRoutine.append? i =
      some (asRead name (blocks ++ [{ b with code := b.code ++ [i] }])).toRoutine := by
  have hcode : (blocks ++ [{ b with code := b.code ++ [i] }]).flatMap Block.code =
      (blocks ++ [b]).flatMap Block.code ++ [i] := by simp
  have hsizes : ((asRead name (blocks ++ [b])).toRoutine.reserveRegs (i.uses ++ i.defs)).sizes =
      reservedSizes ((blocks ++ [{ b with code := b.code ++ [i] }]).flatMap Block.code) := by
    rw [hcode, reservedSizes, List.foldl_concat]
    apply Routine.sizes_reserveRegs_congr
    rfl
  simp only [Routine.append?, asRead, List.getLast?_concat, List.dropLast_concat, Option.map_some,
    Routine.name_reserveRegs]
  exact congrArg some (congrArg (Routine.mk _ _) hsizes)

theorem Function.append?_asRead_nil (name : String) (i : Instr) :
    (asRead name []).toRoutine.append? i = none := rfl

/-- A label opens a block without instructions. -/
theorem Function.asRead_concat (name label : String) (blocks : List Block) :
    { asRead name blocks with blocks := blocks ++ [⟨label, []⟩] } =
      asRead name (blocks ++ [⟨label, []⟩]) := by
  simp [asRead]

/-! ## What is read is legible -/

/-- What is left of a function when its text is read: its name and its blocks. -/
def Function.reread (f : Function) : Function :=
  asRead f.name f.blocks

/-- The function is legible, and there is nothing to it but its name and its blocks. -/
structure Function.IsAsRead (catalog : Catalog) (f : Function) : Prop extends
    f.IsLegible catalog where
  reread_eq : f.reread = f

namespace Reader

variable {catalog : Catalog} {r : Reader}

/-- Everything that was read so far is legible. -/
structure IsLegible (catalog : Catalog) (r : Reader) : Prop where
  globals : ∀ g ∈ r.program.globals, g.IsLegible
  functions : ∀ f ∈ r.program.functions, f.IsAsRead catalog
  current : ∀ p ∈ r.current?, p.1.IsAsRead catalog

theorem IsLegible.readOuter (h : IsLegible catalog r) {line : List Char} (hplain : IsPlain line)
    (position : Position) : Yields (r.readOuter position line) (IsLegible catalog) := by
  unfold Reader.readOuter
  simp only
  split
  · rename_i rest hafter
    have hrest : IsPlain rest := by
      refine hplain.mono ?_
      rw [eq_append_of_after? hafter]
      exact List.subset_append_right _ _
    split
    · exact .error _ _
    · rename_i name value hcut
      obtain ⟨c, rfl, hname⟩ := eq_append_cons_of_cut? hcut
      refine (Yields.any _).bind fun value _ ↦ .ok ⟨fun g hg ↦ ?_, h.functions, h.current⟩
      rcases List.mem_append.1 hg with hg | hg
      · exact h.globals g hg
      · cases List.mem_singleton.1 hg
        refine ⟨?_, ?_, ?_⟩
        · rw [String.toList_ofList, trim_trim]
        · rw [String.toList_ofList]
          exact (hrest.mono (List.subset_append_left _ _)).trim
        · rw [String.toList_ofList]
          intro hmem
          have := hname '=' (mem_of_mem_trim hmem)
          simp at this
  · split
    · exact .error _ _
    · rename_i rest hafter
      split
      · exact .error _ _
      · rename_i name hbefore
        split
        · exact .error _ _
        · rename_i hempty
          have hname : IsPlain name := by
            refine hplain.mono ?_
            rw [eq_append_of_after? hafter, eq_concat_of_before? hbefore]
            intro x hx
            simp [hx]
          refine .ok ⟨h.globals, h.functions, fun p hp ↦ ?_⟩
          cases hp
          refine ⟨⟨?_, ?_, ?_, fun b hb ↦ absurd hb List.not_mem_nil⟩, rfl⟩
          · rw [String.toList_ofList]
            simpa using hempty
          · rw [String.toList_ofList, trim_trim]
          · rw [String.toList_ofList]
            exact hname.trim

theorem yields_isAsRead_readInner {f : Function} (hf : f.IsAsRead catalog) {line : List Char}
    (hplain : IsPlain line) (htrim : trim line = line) :
    Yields (readInner catalog f line) fun f ↦ f.IsAsRead catalog := by
  obtain ⟨name, blocks, rfl⟩ : ∃ name blocks, f = .asRead name blocks := ⟨_, _, hf.reread_eq.symm⟩
  unfold readInner
  split
  · rename_i label hbefore
    split
    · exact .error _ _
    · rename_i hlabel
      simp only [Bool.or_eq_true, not_or, List.any_eq_true, not_exists, List.isEmpty_iff] at hlabel
      refine .ok ⟨⟨hf.ne_nil, hf.trimmed, hf.plain, fun b hb ↦ ?_⟩, ?_⟩
      · rcases List.mem_append.1 hb with hb | hb
        · exact hf.blocks b hb
        · cases List.mem_singleton.1 hb
          refine ⟨?_, ?_, ?_, fun i hi ↦ absurd hi List.not_mem_nil⟩
          · rw [String.toList_ofList]
            exact hlabel.2
          · rw [String.toList_ofList]
            intro c hc
            exact eq_false_of_ne_true fun hblank ↦ hlabel.1 c ⟨hc, hblank⟩
          · rw [String.toList_ofList]
            refine hplain.mono ?_
            rw [eq_concat_of_before? hbefore]
            exact List.subset_append_left _ _
      · exact (Function.asRead_concat name _ blocks).symm
  · rename_i hbefore
    intro g hg
    obtain ⟨i, hi, hg⟩ := bind_eq_ok_iff.1 hg
    have hi := Instr.isLegible_of_read hplain htrim (before?_eq_none_iff.1 hbefore) hi
    rcases List.eq_nil_or_concat blocks with rfl | ⟨blocks, b, rfl⟩
    · rw [Function.append?_asRead_nil] at hg
      cases hg
    · rw [List.concat_eq_append] at hf hg
      rw [Function.append?_asRead] at hg
      cases hg
      refine ⟨⟨hf.ne_nil, hf.trimmed, hf.plain, fun b' hb' ↦ ?_⟩, rfl⟩
      have hb := hf.blocks b (List.mem_append_right _ (List.mem_singleton_self b))
      rcases List.mem_append.1 hb' with hb' | hb'
      · exact hf.blocks b' (List.mem_append_left _ hb')
      · cases List.mem_singleton.1 hb'
        refine ⟨hb.ne_nil, hb.blank, hb.plain, fun j hj ↦ ?_⟩
        rcases List.mem_append.1 hj with hj | hj
        · exact hb.code j hj
        · rwa [List.mem_singleton.1 hj]

theorem IsLegible.readLine (h : IsLegible catalog r) {line : List Char} (hplain : IsPlain line)
    (htrim : trim line = line) (position : Position) :
    Yields (r.readLine catalog position line) (IsLegible catalog) := by
  unfold Reader.readLine
  split
  · exact h.readOuter hplain position
  · rename_i f start hr
    have hf : f.IsAsRead catalog := h.current (f, start) (by rw [hr]; rfl)
    split
    · refine .ok ⟨h.globals, fun g hg ↦ ?_, by simp⟩
      rcases List.mem_append.1 hg with hg | hg
      · exact h.functions g hg
      · rwa [List.mem_singleton.1 hg]
    · refine (yields_isAsRead_readInner hf hplain htrim).bind fun g hg ↦
        .ok ⟨h.globals, h.functions, fun p hp ↦ ?_⟩
      cases hp
      exact hg

theorem IsLegible.readLines (h : IsLegible catalog r) {lines : List (Position × List Char)}
    (hlines : ∀ l ∈ lines, IsPlain l.2 ∧ trim l.2 = l.2) :
    Yields (r.readLines catalog lines) (IsLegible catalog) := by
  induction lines generalizing r with
  | nil => exact .ok h
  | cons hd tl ih =>
    obtain ⟨position, line⟩ := hd
    obtain ⟨hplain, htrim⟩ := hlines (position, line) List.mem_cons_self
    unfold Reader.readLines
    split
    · rename_i r' hr'
      exact ih (h.readLine hplain htrim position r' hr') fun l hl ↦
        hlines l (List.mem_cons_of_mem _ hl)
    · exact .error _ _

end Reader

/-- Everything that is read is legible. -/
theorem Program.isLegible_of_parse {catalog : Catalog} {text : String} {p : Program}
    (h : parse catalog text = .ok p) :
    (∀ g ∈ p.globals, g.IsLegible) ∧ ∀ f ∈ p.functions, f.IsAsRead catalog := by
  have hstart : Reader.IsLegible catalog {} := ⟨by simp, by simp, by simp⟩
  obtain ⟨r, hr, h⟩ := bind_eq_ok_iff.1 h
  have hlegible := hstart.readLines (fun l ↦ isPlain_of_mem_contentLines) r hr
  split at h
  · cases h
    exact ⟨hlegible.globals, hlegible.functions⟩
  · cases h

/-! ## What is legible is read back -/

namespace Reader

variable {catalog : Catalog}

/-- Lines with the given contents lead from the one reader to the other, wherever they stand. -/
def Reads (catalog : Catalog) (contents : List (List Char)) (r r' : Reader) : Prop :=
  ∀ lines : List (Position × List Char), lines.map Prod.snd = contents →
    r.readLines catalog lines = .ok r'

theorem readLines_append {r r' : Reader} {lines : List (Position × List Char)}
    (h : r.readLines catalog lines = .ok r') (lines' : List (Position × List Char)) :
    r.readLines catalog (lines ++ lines') = r'.readLines catalog lines' := by
  induction lines generalizing r with
  | nil =>
    cases h
    rfl
  | cons hd tl ih =>
    obtain ⟨position, line⟩ := hd
    rw [readLines] at h
    rw [List.cons_append, readLines]
    split at h
    · exact ih h
    · cases h

namespace Reads

theorem nil (r : Reader) : Reads catalog [] r r := by
  intro lines hlines
  rw [List.map_eq_nil_iff.1 hlines]
  rfl

theorem append {as bs : List (List Char)} {r r' r'' : Reader} (h : Reads catalog as r r')
    (h' : Reads catalog bs r' r'') : Reads catalog (as ++ bs) r r'' := by
  intro lines hlines
  obtain ⟨ls, ls', rfl, hls, hls'⟩ := List.map_eq_append_iff.1 hlines
  rw [readLines_append (h ls hls), h' ls' hls']

theorem single {line : List Char} {r r' : Reader}
    (h : ∀ position, r.readLine catalog position line = .ok r') : Reads catalog [line] r r' := by
  intro lines hlines
  obtain ⟨⟨position, _⟩, rfl, rfl⟩ := List.map_eq_singleton_iff.1 hlines
  rw [readLines, h position]
  rfl

/-- Steps along a list, one after the other. -/
theorem flatMap {α : Type} {g : α → List (List Char)} {f : List α → Reader} {as : List α}
    (h : ∀ done, ∀ a ∈ as, Reads catalog (g a) (f done) (f (done ++ [a]))) (done : List α) :
    Reads catalog (as.flatMap g) (f done) (f (done ++ as)) := by
  induction as generalizing done with
  | nil =>
    rw [List.append_nil]
    exact nil _
  | cons a as ih =>
    have htail := ih (fun done x hx ↦ h done x (List.mem_cons_of_mem _ hx)) (done ++ [a])
    rw [List.append_assoc, List.singleton_append] at htail
    exact (h done a List.mem_cons_self).append htail

end Reads

end Reader

/-! ### Written lines -/

section Lines

variable {catalog : Catalog}

theorem toList_header (name : String) : ("fn " ++ name ++ " \x7b").toList =
    "fn ".toList ++ (name.toList ++ [' '] ++ ['\x7b']) := by
  simp

theorem isPlain_header {name : String} (h : IsPlain name.toList) :
    IsPlain ("fn " ++ name ++ " \x7b").toList := by
  simp [IsPlain, h.1, h.2]

theorem content_header {name : String} (h : IsPlain name.toList) :
    content ("fn " ++ name ++ " \x7b") = "fn ".toList ++ (name.toList ++ [' '] ++ ['\x7b']) := by
  rw [content_eq_trim (isPlain_header h).1, toList_header]
  refine trim_eq_self (fun c hc ↦ ?_) fun c hc ↦ ?_
  · cases hc
    rfl
  · rw [← List.append_assoc, List.getLast?_concat] at hc
    cases hc
    rfl

namespace Global.IsLegible

variable {g : Global}

theorem isPlain_line (h : g.IsLegible) : IsPlain g.line.toList := by
  have hvalue := (isOperand_immText g.value).plain
  simp [IsPlain, Global.line, h.plain.1, h.plain.2, hvalue.1, hvalue.2]

theorem content_line (h : g.IsLegible) : content g.line = "global ".toList ++
    (g.name.toList ++ [' '] ++ '=' :: ([' '] ++ (immText g.value).toList)) := by
  have htext : g.line.toList =
      "global ".toList ++ (g.name.toList ++ [' '] ++ ['=', ' ']) ++ (immText g.value).toList := by
    simp [Global.line]
  rw [content_eq_trim h.isPlain_line.1, htext, trim_eq_self]
  · simp
  · intro c hc
    cases hc
    rfl
  · intro c hc
    rw [List.getLast?_append_of_ne_nil _ (immText_ne_nil g.value)] at hc
    exact isBlank_of_isNumeric (isNumeric_of_mem_immText (List.mem_of_getLast? hc))

end Global.IsLegible

namespace Instr.IsLegible

variable {i : Instr}

theorem isPlain_line (h : i.IsLegible catalog) : IsPlain ("\t" ++ i.text).toList := by
  have hplain := isPlain_text h
  simp [IsPlain, hplain.1, hplain.2]

theorem content_line (h : i.IsLegible catalog) : content ("\t" ++ i.text) = i.line :=
  content_eq_trim h.isPlain_line.1

end Instr.IsLegible

namespace Block.IsLegible

variable {b : Block}

theorem content_label (h : b.IsLegible catalog) :
    content (b.label ++ ":") = b.label.toList ++ [':'] := by
  have hlabel : trim b.label.toList = b.label.toList :=
    trim_eq_self (fun c hc ↦ h.blank c (List.mem_of_head? hc)) fun c hc ↦
      h.blank c (List.mem_of_getLast? hc)
  rw [content_eq_trim (by simp [h.plain.1]), String.toList_append]
  refine trim_append_eq_self hlabel (fun c hc ↦ ?_) (fun c hc ↦ ?_) (List.cons_ne_nil _ _)
  · cases hc
    rfl
  · cases hc
    rfl

theorem map_content_lines (h : b.IsLegible catalog) :
    b.lines.map content = (b.label.toList ++ [':']) :: b.code.map Instr.line := by
  rw [Block.lines, List.map_cons, h.content_label, List.map_map]
  refine congrArg _ (List.map_congr_left fun i hi ↦ ?_)
  exact (h.code i hi).content_line

/-- The lines of a block are not blank, and no line ends in them. -/
theorem of_mem_lines (h : b.IsLegible catalog) {l : String} (hl : l ∈ b.lines) :
    '\n' ∉ l.toList ∧ content l ≠ [] := by
  rcases List.mem_cons.1 hl with rfl | hl
  · refine ⟨by simp [h.plain.2], ?_⟩
    rw [h.content_label]
    simp
  · obtain ⟨i, hi, rfl⟩ := List.mem_map.1 hl
    refine ⟨(h.code i hi).isPlain_line.2, ?_⟩
    obtain ⟨c, cs, hline, -⟩ := Instr.exists_line_eq_cons (h.code i hi)
    rw [(h.code i hi).content_line, hline]
    exact List.cons_ne_nil c cs

end Block.IsLegible

theorem filter_map_content {lines : List String} (h : ∀ l ∈ lines, content l ≠ []) :
    (lines.map content).filter (!·.isEmpty) = lines.map content := by
  rw [List.filter_eq_self]
  intro x hx
  obtain ⟨l, hl, rfl⟩ := List.mem_map.1 hx
  simpa using h l hl

namespace Function

variable {f : Function}

/-- What is read of the lines of a function. -/
def contents (f : Function) : List (List Char) :=
  content ("fn " ++ f.name ++ " \x7b") ::
    (f.blocks.flatMap (fun b ↦ b.lines.map content) ++ [content "\x7d"])

/-- The size of the frame is written in a comment. -/
theorem content_frame (size : Nat) : content ("\t# frame " ++ toString size) = [] := by
  rw [content, String.toList_append]
  rfl

theorem filter_map_content_lines (h : f.IsLegible catalog) :
    (f.lines.map content).filter (!·.isEmpty) = f.contents := by
  have hheader : content ("fn " ++ f.name ++ " \x7b") ≠ [] := by
    rw [content_header h.plain]
    simp
  have hframe : ((if f.frame.size = 0 then [] else ["\t# frame " ++ toString f.frame.size]).map
      content).filter (!·.isEmpty) = [] := by
    split
    · rfl
    · rw [List.map_singleton, content_frame]
      rfl
  have hblocks : ((f.blocks.flatMap Block.lines).map content).filter (!·.isEmpty) =
      f.blocks.flatMap fun b ↦ b.lines.map content := by
    rw [filter_map_content, List.map_flatMap]
    intro l hl
    obtain ⟨b, hb, hl⟩ := List.mem_flatMap.1 hl
    exact ((h.blocks b hb).of_mem_lines hl).2
  rw [lines, List.map_append, List.map_append, List.map_cons, List.filter_append,
    List.filter_append, List.filter_cons_of_pos (by simpa using hheader), hframe, hblocks]
  rfl

theorem notMem_of_mem_lines (h : f.IsLegible catalog) {l : String} (hl : l ∈ f.lines) :
    '\n' ∉ l.toList := by
  simp only [lines, List.mem_append, List.mem_cons, List.mem_flatMap, List.not_mem_nil,
    or_false] at hl
  rcases hl with ((rfl | hl) | ⟨b, hb, hl⟩) | rfl
  · exact (isPlain_header h.plain).2
  · split at hl
    · cases hl
    · rw [List.mem_singleton.1 hl, String.toList_append, List.mem_append, not_or]
      exact ⟨by decide, fun hc ↦ absurd (isDigit_of_mem_repr hc) (by decide)⟩
  · exact ((h.blocks b hb).of_mem_lines hl).1
  · decide

end Function

end Lines

/-! ### Functions -/

namespace Reader

variable {catalog : Catalog} {p : Program} {start : Position} {name : String}

/-- The reader inside of a function with the given blocks so far. -/
def inside (p : Program) (start : Position) (name : String) (blocks : List Block) : Reader :=
  ⟨p, some (.asRead name blocks, start)⟩

theorem reads_inner {blocks blocks' : List Block} {line : List Char} (hline : line ≠ ['\x7d'])
    (h : readInner catalog (.asRead name blocks) line = .ok (.asRead name blocks')) :
    Reads catalog [line] (inside p start name blocks) (inside p start name blocks') := by
  refine .single fun position ↦ ?_
  rw [readLine, inside]
  simp only [if_neg hline, h]
  rfl

theorem reads_label {b : Block} (h : b.IsLegible catalog) (blocks : List Block) :
    Reads catalog [b.label.toList ++ [':']] (inside p start name blocks)
      (inside p start name (blocks ++ [⟨b.label, []⟩])) := by
  refine reads_inner (fun heq ↦ ?_) ?_
  · have hlast := congrArg List.getLast? heq
    rw [List.getLast?_concat] at hlast
    cases hlast
  · have hword : (b.label.toList.any isBlank || b.label.toList.isEmpty) = false := by
      rw [Bool.or_eq_false_iff, List.any_eq_false, List.isEmpty_eq_false_iff]
      exact ⟨fun c hc ↦ by rw [h.blank c hc]; decide, h.ne_nil⟩
    rw [readInner, before?_concat]
    simp only [hword, String.ofList_toList]
    exact congrArg Except.ok (Function.asRead_concat name b.label blocks)

theorem reads_instr {i : Instr} (h : i.IsLegible catalog) (blocks : List Block) (b : Block) :
    Reads catalog [i.line] (inside p start name (blocks ++ [b]))
      (inside p start name (blocks ++ [{ b with code := b.code ++ [i] }])) := by
  obtain ⟨c, cs, hline, hc⟩ := Instr.exists_line_eq_cons h
  refine reads_inner (fun hclose ↦ ?_) ?_
  · rw [hline] at hclose
    cases (List.cons.inj hclose).1
    exact absurd hc (by decide)
  rw [readInner, before?_eq_none_iff.2 (Instr.getLast?_line h)]
  refine bind_eq_ok_iff.2 ⟨i, Instr.read_line_of_isLegible h, ?_⟩
  rw [Function.append?_asRead]
  rfl

/-- A block is read with its label and its instructions. -/
theorem reads_block {b : Block} (h : b.IsLegible catalog) (blocks : List Block) :
    Reads catalog (b.lines.map content) (inside p start name blocks)
      (inside p start name (blocks ++ [b])) := by
  have hcode : Reads catalog (b.code.flatMap fun i ↦ [i.line])
      (inside p start name (blocks ++ [⟨b.label, []⟩]))
      (inside p start name (blocks ++ [⟨b.label, [] ++ b.code⟩])) := by
    refine Reads.flatMap ?_ (f := fun code ↦ inside p start name (blocks ++ [⟨b.label, code⟩])) []
    exact fun done i hi ↦ reads_instr (h.code i hi) blocks ⟨b.label, done⟩
  rw [h.map_content_lines, List.map_eq_flatMap]
  exact (reads_label h blocks).append hcode

/-- The first line of a function gives its name. -/
theorem readLine_header {f : Function} (h : f.IsLegible catalog) (p : Program)
    (position : Position) :
    readLine catalog ⟨p, none⟩ position (content ("fn " ++ f.name ++ " \x7b")) =
      .ok (inside p position f.name []) := by
  have hname : trim (f.name.toList ++ [' ']) = f.name.toList :=
    (trim_append_right (fun _ ↦ isBlank_of_mem_space) _).trans h.trimmed
  have hglobal : after? "global ".toList ("fn ".toList ++ (f.name.toList ++ [' '] ++ ['\x7b'])) =
      none := rfl
  have hempty : f.name.toList.isEmpty = false := List.isEmpty_eq_false_iff.2 h.ne_nil
  rw [content_header h.plain, readLine, readOuter]
  simp only [hglobal, after?_append, before?_concat, hname, hempty, String.ofList_toList]
  rfl

/-- The last line of a function closes it. -/
theorem reads_close (blocks : List Block) :
    Reads catalog [content "\x7d"] (inside p start name blocks)
      ⟨{ p with functions := p.functions ++ [.asRead name blocks] }, none⟩ := by
  refine .single fun position ↦ ?_
  rfl

/-- A function is read with its name and its blocks. -/
theorem reads_function {f : Function} (h : f.IsLegible catalog) (p : Program) :
    Reads catalog f.contents ⟨p, none⟩
      ⟨{ p with functions := p.functions ++ [f.reread] }, none⟩ := by
  have hblocks : ∀ start, Reads catalog (f.blocks.flatMap fun b ↦ b.lines.map content)
      (inside p start f.name []) (inside p start f.name ([] ++ f.blocks)) :=
    fun start ↦ Reads.flatMap (fun done b hb ↦ reads_block (h.blocks b hb) done) []
  intro lines hmap
  obtain ⟨⟨position, line⟩, lines, rfl, hline, hmap⟩ := List.map_eq_cons_iff.1 hmap
  change line = _ at hline
  rw [hline, readLines, readLine_header h]
  exact (hblocks position).append (reads_close f.blocks) lines hmap

/-- A global is read with its name and its value. -/
theorem reads_global {g : Global} (h : g.IsLegible) (p : Program) :
    Reads catalog [content g.line] ⟨p, none⟩ ⟨{ p with globals := p.globals ++ [g] }, none⟩ := by
  have hcut : cut? (· = '=')
      (g.name.toList ++ [' '] ++ '=' :: ([' '] ++ (immText g.value).toList)) =
      some (g.name.toList ++ [' '], [' '] ++ (immText g.value).toList) := by
    refine cut?_append_cons (p := (· = '=')) (fun c hc ↦ decide_eq_false ?_) rfl _
    rintro rfl
    rcases List.mem_append.1 hc with hc | hc
    · exact h.equals hc
    · cases List.mem_singleton.1 hc
  have hname : trim (g.name.toList ++ [' ']) = g.name.toList :=
    (trim_append_right (fun _ ↦ isBlank_of_mem_space) _).trans h.trimmed
  have hvalue : trim ([' '] ++ (immText g.value).toList) = (immText g.value).toList :=
    (trim_append_left (fun _ ↦ isBlank_of_mem_space) _).trans (isOperand_immText g.value).trimmed
  refine .single fun position ↦ ?_
  rw [h.content_line, readLine, readOuter]
  simp only [after?_append, hcut, hname, hvalue, readImm_immText, String.ofList_toList]
  rfl

end Reader

/-! ## Whole programs -/

namespace Program

variable {catalog : Catalog} {p : Program}

/-- The globals and the functions can be read from what is written for them. -/
structure IsLegible (catalog : Catalog) (p : Program) : Prop where
  globals : ∀ g ∈ p.globals, g.IsLegible
  functions : ∀ f ∈ p.functions, f.IsLegible catalog

theorem mem_lines {l : String} (hl : l ∈ p.lines) :
    (∃ g ∈ p.globals, l = g.line) ∨ (∃ f ∈ p.functions, l ∈ f.lines) ∨ l = "" := by
  have hfunctions : ∀ {fs : List Function}, l ∈ fs.flatMap (fun f ↦ "" :: f.lines) →
      (∃ f ∈ fs, l ∈ f.lines) ∨ l = "" := by
    intro fs hl
    obtain ⟨f, hf, hl⟩ := List.mem_flatMap.1 hl
    rcases List.mem_cons.1 hl with rfl | hl
    · exact .inr rfl
    · exact .inl ⟨f, hf, hl⟩
  rcases List.mem_append.1 hl with hl | hl
  · obtain ⟨g, hg, rfl⟩ := List.mem_map.1 hl
    exact .inl ⟨g, hg, rfl⟩
  · refine .inr ?_
    split at hl
    · cases hp : p.functions with
      | nil => simp [hp, functionLines] at hl
      | cons f fs =>
        rw [hp] at hl
        rcases List.mem_append.1 hl with hl | hl
        · exact .inl ⟨f, List.mem_cons_self, hl⟩
        · rcases hfunctions hl with ⟨f', hf', hl⟩ | rfl
          · exact .inl ⟨f', List.mem_cons_of_mem _ hf', hl⟩
          · exact .inr rfl
    · exact hfunctions hl

theorem IsLegible.notMem_of_mem_lines (h : p.IsLegible catalog) {l : String} (hl : l ∈ p.lines) :
    '\n' ∉ l.toList := by
  rcases mem_lines hl with ⟨g, hg, rfl⟩ | ⟨f, hf, hl⟩ | rfl
  · exact (h.globals g hg).isPlain_line.2
  · exact Function.notMem_of_mem_lines (h.functions f hf) hl
  · exact List.not_mem_nil

/-- Empty lines between the functions are passed over. -/
theorem IsLegible.filter_map_content_lines (h : p.IsLegible catalog) :
    (p.lines.map content).filter (!·.isEmpty) =
      p.globals.flatMap (fun g ↦ [content g.line]) ++ p.functions.flatMap Function.contents := by
  have hglobals : ((p.globals.map Global.line).map content).filter (!·.isEmpty) =
      p.globals.flatMap fun g ↦ [content g.line] := by
    rw [filter_map_content, List.map_map, List.map_eq_flatMap]
    · rfl
    · intro l hl
      obtain ⟨g, hg, rfl⟩ := List.mem_map.1 hl
      rw [(h.globals g hg).content_line]
      simp
  have hspaced : ∀ fs : List Function, (∀ f ∈ fs, f.IsLegible catalog) →
      ((fs.flatMap fun f ↦ "" :: f.lines).map content).filter (!·.isEmpty) =
        fs.flatMap Function.contents := by
    intro fs hfs
    rw [List.map_flatMap, List.filter_flatMap]
    refine List.flatMap_congr fun f hf ↦ ?_
    rw [← Function.filter_map_content_lines (hfs f hf)]
    rfl
  have hfunctions : ((functionLines p.functions).map content).filter (!·.isEmpty) =
      p.functions.flatMap Function.contents := by
    cases hp : p.functions with
    | nil => rfl
    | cons f fs =>
      have hfs : ∀ f' ∈ f :: fs, f'.IsLegible catalog := hp ▸ h.functions
      rw [functionLines, List.map_append, List.filter_append, List.flatMap_cons,
        Function.filter_map_content_lines (hfs f List.mem_cons_self),
        hspaced fs fun f' hf' ↦ hfs f' (List.mem_cons_of_mem _ hf')]
  rw [lines, List.map_append, List.filter_append, hglobals]
  split
  · rw [hfunctions]
  · rw [hspaced p.functions h.functions]

/-- A legible program is read back, with what is left of its functions. -/
theorem IsLegible.parse_text (h : p.IsLegible catalog) :
    parse catalog p.text = .ok { p with functions := p.functions.map Function.reread } := by
  have hglobals : Reader.Reads catalog (p.globals.flatMap fun g ↦ [content g.line]) ⟨⟨[], []⟩, none⟩
      ⟨⟨[] ++ p.globals, []⟩, none⟩ :=
    Reader.Reads.flatMap (f := fun globals ↦ ⟨⟨globals, []⟩, none⟩)
      (fun done g hg ↦ Reader.reads_global (h.globals g hg) ⟨done, []⟩) []
  have hfunctions : Reader.Reads catalog (p.functions.flatMap Function.contents)
      ⟨⟨p.globals, []⟩, none⟩ ⟨⟨p.globals, ([] ++ p.functions).map Function.reread⟩, none⟩ := by
    refine Reader.Reads.flatMap
      (f := fun fs ↦ ⟨⟨p.globals, fs.map Function.reread⟩, none⟩) (fun done f hf ↦ ?_) []
    rw [List.map_append]
    exact Reader.reads_function (h.functions f hf) ⟨p.globals, done.map Function.reread⟩
  have hcontents : (contentLines p.text.toList).map Prod.snd =
      p.globals.flatMap (fun g ↦ [content g.line]) ++ p.functions.flatMap Function.contents := by
    rw [text, map_snd_contentLines_unlines fun l hl ↦ h.notMem_of_mem_lines hl,
      h.filter_map_content_lines]
  have hread := hglobals.append hfunctions (contentLines p.text.toList) hcontents
  exact bind_eq_ok_iff.2 ⟨_, hread, rfl⟩

/-- A program that was read is read back from what is written for it. -/
theorem parse_text_of_parse {text : String} (h : parse catalog text = .ok p) :
    parse catalog p.text = .ok p ∧ ∀ f ∈ p.functions, f.frame = {} := by
  obtain ⟨hglobals, hfunctions⟩ := isLegible_of_parse h
  have hlegible : p.IsLegible catalog := ⟨hglobals, fun f hf ↦ (hfunctions f hf).toIsLegible⟩
  have hsame : p.functions.map Function.reread = p.functions :=
    (List.map_congr_left fun f hf ↦ (hfunctions f hf).reread_eq).trans (List.map_id _)
  refine ⟨?_, fun f hf ↦ ?_⟩
  · rw [hlegible.parse_text, hsame]
  · rw [← (hfunctions f hf).reread_eq]
    rfl

/-- A text with comments, other blanks and other spellings of numbers. -/
def spelled : String :=
  "fn f g  \x7b # two words\nentry:\n lw t0 , x\n\tcall f,g (%+1, ,s1)\nli %1, 0x-10\n" ++
    "sw s1,  ( fp )\nret %1\n\x7d\nglobal = --5"

/-- What is written for the program that is read from it. -/
def respelled : String :=
  "global  = 5\n\nfn f g \x7b\nentry:\n\tlw t0, x\n\tcall f,g(%1, s1)\n\tli %1, -16\n" ++
    "\tsw s1, 0(fp)\n\tret %1\n\x7d\n"

theorem parse_text_of_spelled : ∃ p, parse .twoColours spelled = .ok p ∧ p.text = respelled ∧
    parse .twoColours respelled = .ok p := by
  let p : Program := { globals := [⟨"", 5⟩], functions := [.asRead "f g" [⟨"entry",
    [.loadSymbol .word (.phys ⟨2, "t0"⟩) "x",
      .call "f,g" [.virt 1, .phys ⟨1, "s1"⟩] [.phys ⟨2, "t0"⟩], .li (.virt 1) (-16),
      .store .word (.phys ⟨1, "s1"⟩) (.phys ⟨0, "fp"⟩) 0,
      .ret [.virt 1] [.phys ⟨1, "s1"⟩]]⟩]] }
  have hparse : parse .twoColours spelled = .ok p := by decide +kernel
  have htext : p.text = respelled := by decide +kernel
  exact ⟨p, hparse, htext, htext ▸ (parse_text_of_parse hparse).1⟩

end Program

end RegAlloc
