import Mathlib.Data.List.Chain
import WhileLang.Proofs.Lexing.Spelling
import WhileLang.Viewer.Highlight

/-!
# Highlighting keeps the text

A line can be cut in one pass over its characters and their byte offsets, with slices of the line
for pieces: a word is remembered by the offset where it began, until a symbol, a comment or the end
of the line comes (`cut?`). A slice exists only between the borders of characters. The invariant of
the pass is that the line before the current character ends with the word that has begun, and all
slices follow from it (`scan_charIndices`).

The pieces are the line again, none of them is empty, no two words are next to each other, and a
comment is the last piece (`cut?_eq_some`).
-/

namespace WhileLang

namespace Highlight

/-! ## Pieces at the front of a line -/

/-- A word at the front of a line, if it is not empty. -/
def ofWord? : List Char → List Highlight
  | [] => []
  | c :: cs => [⟨.ofWord (c :: cs), c :: cs⟩]

theorem ofWord?_of_ne_nil {w : List Char} (h : w ≠ []) : ofWord? w = [⟨.ofWord w, w⟩] := by
  cases w with
  | nil => exact absurd rfl h
  | cons c cs => rfl

theorem pieces_word {w rest : List Char} (hw : ∀ c ∈ w, isWordPart c = true)
    (hrest : BeginsOutside isWordPart rest) : pieces (w ++ rest) = ofWord? w ++ pieces rest := by
  cases w with
  | nil => rfl
  | cons c cs =>
    obtain ⟨hc, hcs⟩ := List.forall_mem_cons.mp hw
    have hcut := cut_of_class hcs hrest
    rw [List.cons_append, pieces, if_pos hc, hcut.1, hcut.2]
    rfl

theorem pieces_comment (cs : List Char) :
    pieces ('/' :: '/' :: cs) = [⟨.comment, '/' :: '/' :: cs⟩] := by
  rw [pieces]
  rfl

theorem pieces_symbol {c : Char} {cs : List Char} (hc : isWordPart c = false)
    (hcomment : ¬(c = '/' ∧ cs.head? = some '/')) :
    pieces (c :: cs) = ⟨.ofSymbol c, [c]⟩ :: pieces cs := by
  rw [pieces, if_neg (by simp [hc]), if_neg hcomment]

/-! ## Slices of a line -/

/-- The number of bytes that the characters take. -/
def byteLength (cs : List Char) : Nat := (String.ofList cs).utf8ByteSize

@[simp] theorem byteLength_append (cs ds : List Char) :
    byteLength (cs ++ ds) = byteLength cs + byteLength ds := by
  simp [byteLength, String.ofList_append]

@[simp] theorem byteLength_singleton (c : Char) : byteLength [c] = c.utf8Size :=
  String.utf8ByteSize_singleton

theorem utf8ByteSize_eq {line : String} {cs : List Char} (h : line.toList = cs) :
    line.utf8ByteSize = byteLength cs := by
  rw [byteLength, ← h, String.ofList_toList]

/-- The text between two byte offsets of a line. There is none if one of them is inside of a
character or if they are in the wrong order. -/
def slice? (line : String) (i j : Nat) : Option (List Char) :=
  if h : String.Pos.Raw.IsValid line ⟨i⟩ ∧ String.Pos.Raw.IsValid line ⟨j⟩ ∧ i ≤ j then
    some (line.slice (line.pos ⟨i⟩ h.1) (line.pos ⟨j⟩ h.2.1) h.2.2).copy.toList
  else
    none

/-- The border of two parts of a line is a border of characters. -/
theorem isValid_byteLength {line : String} {before after : List Char}
    (h : line.toList = before ++ after) :
    String.Pos.Raw.IsValid line ⟨byteLength before⟩ := by
  apply String.Pos.Raw.isValid_iff_exists_append.mpr
  refine ⟨String.ofList before, String.ofList after, ?_, rfl⟩
  rw [← String.toList_inj, h, ← String.ofList_append, String.toList_ofList]

theorem slice?_eq_some {line : String} {before text after : List Char}
    (h : line.toList = before ++ text ++ after) :
    slice? line (byteLength before) (byteLength (before ++ text)) = some text := by
  have hfirst : line.toList = before ++ (text ++ after) := by rw [h, List.append_assoc]
  have hline : line = String.ofList before ++ (String.ofList text ++ String.ofList after) := by
    rw [← String.toList_inj, hfirst, ← String.ofList_append, ← String.ofList_append,
      String.toList_ofList]
  have hi := isValid_byteLength hfirst
  have hj := isValid_byteLength h
  have hle : byteLength before ≤ byteLength (before ++ text) := by
    rw [byteLength_append]
    omega
  unfold slice?
  rw [dif_pos ⟨hi, hj, hle⟩, Option.some.injEq]
  have hsplits : (line.pos ⟨byteLength before⟩ hi).Splits (String.ofList before)
        (String.ofList text ++ String.ofList after) ∧
      (line.pos ⟨byteLength (before ++ text)⟩ hj).Splits
        (String.ofList before ++ String.ofList text) (String.ofList after) := by
    refine ⟨⟨hline, String.offset_pos⟩, ⟨by rw [hline, String.append_assoc], ?_⟩⟩
    rw [String.offset_pos, ← String.ofList_append]
    rfl
  obtain ⟨_, hcopy⟩ := String.copy_slice_eq_iff_splits.mpr ⟨_, _, hsplits⟩
  rw [hcopy, String.toList_ofList]

theorem comment_prefix_iff {c : Char} {cs : List Char} :
    ['/', '/'] <+: c :: cs ↔ c = '/' ∧ cs.head? = some '/' := by
  cases cs <;> simp [List.cons_prefix_cons, eq_comm]

/-! ## One pass over a line -/

/-- The characters from a byte offset on, each with its own. -/
def charIndices (i : Nat) : List Char → List (Nat × Char)
  | [] => []
  | c :: cs => (i, c) :: charIndices (i + c.utf8Size) cs

/-- The word from the offset where it began, if one has begun. -/
def flush? (line : String) (start? : Option Nat) (i : Nat) : Option (List Highlight) :=
  match start? with
  | none => some []
  | some start => (slice? line start i).map fun word => [⟨.ofWord word, word⟩]

/-- What is left of the pass, when a word may have begun at an offset. -/
def scan (line : String) (start? : Option Nat) : List (Nat × Char) → Option (List Highlight)
  | [] => flush? line start? line.utf8ByteSize
  | (i, c) :: rest =>
    if isWordPart c then
      scan line (start?.or (some i)) rest
    else do
      let words ← flush? line start? i
      let tail ← slice? line i line.utf8ByteSize
      if ['/', '/'] <+: tail then
        return words ++ [⟨.comment, tail⟩]
      let symbol ← slice? line i (i + c.utf8Size)
      return words ++ ⟨.ofSymbol c, symbol⟩ :: (← scan line none rest)

/-- The pieces of a line, if all slices are at borders of characters. -/
def cut? (line : String) : Option (List Highlight) := scan line none (charIndices 0 line.toList)

/-- The offset where the word began that the line before the current character ends with. -/
def wordStart? (before word : List Char) : Option Nat := word.head?.map fun _ => byteLength before

theorem wordStart?_append (before word : List Char) (c : Char) :
    (wordStart? before word).or (some (byteLength (before ++ word))) =
      wordStart? before (word ++ [c]) := by
  cases word with
  | nil => simp [wordStart?]
  | cons d word => rfl

variable {line : String} {before word rest : List Char}

theorem flush?_wordStart? (hline : line.toList = before ++ word ++ rest) :
    flush? line (wordStart? before word) (byteLength (before ++ word)) = some (ofWord? word) := by
  cases word with
  | nil => rfl
  | cons c cs =>
    show (slice? line (byteLength before) _).map _ = _
    rw [slice?_eq_some hline]
    rfl

/-- What the pass does at a character outside of words. -/
theorem scan_symbol {c : Char} (hline : line.toList = before ++ word ++ c :: rest)
    (hc : isWordPart c = false) (more : List (Nat × Char)) :
    scan line (wordStart? before word) ((byteLength (before ++ word), c) :: more) =
      if c = '/' ∧ rest.head? = some '/' then
        some (ofWord? word ++ [⟨.comment, c :: rest⟩])
      else
        (scan line none more).map fun hs => ofWord? word ++ ⟨.ofSymbol c, [c]⟩ :: hs := by
  have hwords := flush?_wordStart? hline
  have htail := slice?_eq_some (hline.trans (List.append_nil _).symm)
  have hsymbol := slice?_eq_some (hline.trans (List.append_cons _ c rest))
  rw [← utf8ByteSize_eq hline] at htail
  rw [byteLength_append _ [c], byteLength_singleton] at hsymbol
  rw [scan, if_neg (by simp [hc]), hwords, htail, hsymbol]
  show (if ['/', '/'] <+: c :: rest then _ else _) = _
  by_cases hcomment : c = '/' ∧ rest.head? = some '/'
  · rw [if_pos hcomment, if_pos (comment_prefix_iff.mpr hcomment)]
    rfl
  · rw [if_neg hcomment, if_neg fun h => hcomment (comment_prefix_iff.mp h)]
    cases scan line none more <;> rfl

/-- The pass from the middle of a line on, when a word may have begun. -/
theorem scan_charIndices (before word : List Char) (hline : line.toList = before ++ word ++ rest)
    (hword : ∀ c ∈ word, isWordPart c = true) :
    scan line (wordStart? before word) (charIndices (byteLength (before ++ word)) rest) =
      some (pieces (word ++ rest)) := by
  induction rest generalizing before word with
  | nil =>
    have hpieces := pieces_word hword (beginsOutside_nil isWordPart)
    rw [charIndices, scan, utf8ByteSize_eq hline, hpieces, pieces, List.append_nil, List.append_nil]
    exact flush?_wordStart? hline
  | cons c rest ih =>
    rw [charIndices]
    by_cases hc : isWordPart c = true
    · have hword' : ∀ d ∈ word ++ [c], isWordPart d = true := by
        simpa [or_imp, forall_and] using ⟨hword, hc⟩
      have hpass := ih before (word ++ [c]) (by simp [hline]) hword'
      rw [scan, if_pos hc, wordStart?_append before word c]
      simpa [Nat.add_assoc] using hpass
    · have hc : isWordPart c = false := by simpa using hc
      rw [scan_symbol hline hc, pieces_word hword (beginsOutside_cons hc rest)]
      by_cases hcomment : c = '/' ∧ rest.head? = some '/'
      · rw [if_pos hcomment]
        obtain ⟨rfl, hslash⟩ := hcomment
        obtain ⟨more, rfl⟩ := List.head?_eq_some_iff.mp hslash
        rw [pieces_comment]
      · have hpass := ih (before ++ word ++ [c]) [] (by simp [hline]) (List.forall_mem_nil _)
        rw [List.append_nil, byteLength_append _ [c], byteLength_singleton] at hpass
        change scan line none _ = some (pieces rest) at hpass
        rw [if_neg hcomment, hpass, pieces_symbol hc hcomment]
        rfl

/-! ## What the pieces are -/

theorem isWord_ofWord (word : List Char) : (Role.ofWord word).isWord = true := by
  unfold Role.ofWord
  split <;> try rfl
  split <;> rfl

theorem isWord_ofSymbol (c : Char) : (Role.ofSymbol c).isWord = false := by
  unfold Role.ofSymbol
  split
  · rfl
  · split <;> rfl

theorem ofSymbol_ne_comment (c : Char) : Role.ofSymbol c ≠ .comment := by
  unfold Role.ofSymbol
  split
  · decide
  · split <;> decide

theorem ne_comment_of_isWord {role : Role} (h : role.isWord = true) : role ≠ .comment := by
  rintro rfl
  cases h

/-- The role of a piece says what its characters are: a word, a comment, or a single symbol. -/
inductive Fits : Highlight → Prop where
  | word {w : List Char} (hne : w ≠ []) (hw : ∀ c ∈ w, isWordPart c = true) :
      Fits ⟨.ofWord w, w⟩
  | comment (cs : List Char) : Fits ⟨.comment, '/' :: '/' :: cs⟩
  | symbol {c : Char} (hc : isWordPart c = false) : Fits ⟨.ofSymbol c, [c]⟩

namespace Fits

variable {h : Highlight}

theorem text_ne_nil (hfits : Fits h) : h.text ≠ [] := by
  cases hfits with
  | word hne => exact hne
  | comment cs => exact List.cons_ne_nil _ _
  | symbol hc => exact List.cons_ne_nil _ _

/-- A piece that begins with a character of words is a word. -/
theorem isWord_iff (hfits : Fits h) {c : Char} (hc : h.text.head? = some c) :
    h.role.isWord = true ↔ isWordPart c = true := by
  cases hfits with
  | word _ hw => exact iff_of_true (isWord_ofWord _) (hw c (List.mem_of_head? hc))
  | comment cs =>
    cases hc
    exact iff_of_false Bool.false_ne_true Bool.false_ne_true
  | symbol hd =>
    cases hc
    rw [isWord_ofSymbol, hd]

end Fits

theorem fits_pieces (cs : List Char) : ∀ h ∈ pieces cs, Fits h := by
  fun_induction pieces cs with
  | case1 => exact nofun
  | case2 c cs hc _ ih =>
    refine List.forall_mem_cons.mpr ⟨.word (List.cons_ne_nil _ _) ?_, ih⟩
    exact List.forall_mem_cons.mpr ⟨hc, fun d hd => List.all_eq_true.mp List.all_takeWhile d hd⟩
  | case3 c cs _ hcomment =>
    obtain ⟨rfl, hslash⟩ := hcomment
    obtain ⟨more, rfl⟩ := List.head?_eq_some_iff.mp hslash
    exact List.forall_mem_singleton.mpr (.comment more)
  | case4 c cs hc _ ih => exact List.forall_mem_cons.mpr ⟨.symbol (by simpa using hc), ih⟩

theorem flatMap_text_pieces (cs : List Char) : (pieces cs).flatMap text = cs := by
  fun_induction pieces cs with
  | case1 => rfl
  | case2 c cs _ _ ih =>
    rw [List.flatMap_cons, ih, List.cons_append, List.takeWhile_append_dropWhile]
  | case3 c cs => exact List.flatMap_singleton text _
  | case4 c cs _ _ ih => rw [List.flatMap_cons, ih]; rfl

/-- The first piece of a line begins with its first character. -/
theorem head?_text {cs : List Char} {h : Highlight} (hhead : (pieces cs).head? = some h) :
    h.text.head? = cs.head? := by
  obtain ⟨hs, hpieces⟩ := List.head?_eq_some_iff.mp hhead
  have hfits := fits_pieces cs h (by rw [hpieces]; exact List.mem_cons_self)
  rw [← flatMap_text_pieces cs, hpieces, List.flatMap_cons]
  exact (List.head?_append_of_ne_nil h.text hfits.text_ne_nil).symm

/-- No two words are next to each other. -/
theorem isChain_pieces (cs : List Char) :
    (pieces cs).IsChain fun g h => g.role.isWord = true → h.role.isWord = false := by
  fun_induction pieces cs with
  | case1 => exact .nil
  | case2 c cs _ _ ih =>
    refine List.isChain_cons.mpr ⟨fun h hh _ => ?_, ih⟩
    have hfits := fits_pieces _ h (List.mem_of_head? hh)
    obtain ⟨d, ds, htext⟩ := List.exists_cons_of_ne_nil hfits.text_ne_nil
    have hd : h.text.head? = some d := by rw [htext]; rfl
    have houtside : isWordPart d = false :=
      beginsOutside_dropWhile isWordPart cs d ((head?_text hh).symm.trans hd)
    apply Bool.eq_false_iff.mpr
    rw [Ne, hfits.isWord_iff hd, houtside]
    exact Bool.false_ne_true
  | case3 c cs => exact .singleton _
  | case4 c cs hc _ ih =>
    refine List.isChain_cons.mpr ⟨fun h _ hword => ?_, ih⟩
    rw [(Fits.symbol (by simpa using hc)).isWord_iff rfl] at hword
    exact absurd hword hc

/-- Nothing comes after a comment. -/
theorem eq_nil_of_comment {cs : List Char} {before : List Highlight} {h : Highlight}
    {after : List Highlight} (heq : pieces cs = before ++ h :: after) (hrole : h.role = .comment) :
    after = [] := by
  fun_induction pieces cs generalizing before with
  | case1 => cases before <;> cases heq
  | case2 c cs _ _ ih =>
    cases before with
    | nil =>
      obtain ⟨rfl, -⟩ := List.cons.inj heq
      exact absurd hrole (ne_comment_of_isWord (isWord_ofWord _))
    | cons g before => exact ih (List.cons.inj heq).2
  | case3 c cs =>
    cases before with
    | nil => exact (List.cons.inj heq).2.symm
    | cons g before => cases before <;> cases heq
  | case4 c cs _ _ ih =>
    cases before with
    | nil =>
      obtain ⟨rfl, -⟩ := List.cons.inj heq
      exact absurd hrole (ofSymbol_ne_comment c)
    | cons g before => exact ih (List.cons.inj heq).2

/-- **Highlighting keeps the text.** The pieces of a line are slices of it at borders of characters.
Together they are the line, none of them is empty, and each is a word, a symbol or a comment as its
role says. No two words are next to each other, and nothing comes after a comment. -/
theorem cut?_eq_some (line : String) :
    cut? line = some (ofLine line) ∧
      String.join ((ofLine line).map fun h => h.span.text) = line ∧
      (∀ h ∈ ofLine line, h.Fits ∧ h.span.text ≠ "") ∧
      ((ofLine line).IsChain fun g h => g.role.isWord = true → h.role.isWord = false) ∧
      ∀ before h after, ofLine line = before ++ h :: after → h.role = .comment → after = [] := by
  refine ⟨?_, ?_, ?_, isChain_pieces _, fun before h after => eq_nil_of_comment⟩
  · exact scan_charIndices [] [] rfl (List.forall_mem_nil _)
  · rw [← String.toList_inj, String.toList_join, List.flatMap_map]
    simp only [span, String.toList_ofList]
    exact flatMap_text_pieces _
  · intro h hh
    have hfits := fits_pieces _ h hh
    refine ⟨hfits, fun hempty => hfits.text_ne_nil ?_⟩
    rw [← String.toList_ofList (l := h.text), ← String.toList_eq_nil_iff.mpr hempty]
    rfl

end Highlight

end WhileLang
