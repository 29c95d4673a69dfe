import WhileLang.Token.Scanner

/-!
# Gaps

What stands between tokens: blanks and comments. Every text is a gap and something that no gap
begins with (`exists_gap`), and there the scanner stops (`skipGap_gap`). The text may also end
inside a comment (`skipGap_openComment`).
-/

namespace WhileLang

namespace Position

theorem line_pastAll {cs : List Char} (h : '\n' ∉ cs) (p : Position) :
    (p.pastAll cs).line = p.line := by
  induction cs generalizing p with
  | nil => rfl
  | cons c cs ih =>
    simp only [List.mem_cons, not_or] at h
    have hpast : p.past c = p.nextColumn := if_neg (Ne.symm h.1)
    rw [pastAll_cons, ih h.2, hpast]
    rfl

/-- The rest of a line does not change which line is next. -/
theorem nextLine_pastAll {cs : List Char} (h : '\n' ∉ cs) (p : Position) :
    (p.pastAll cs).nextLine = p.nextLine := by
  unfold nextLine
  rw [line_pastAll h]

end Position

/-! ## Texts between tokens -/

/-- Blanks and comments with their line feeds. -/
inductive Gap : List Char → Prop where
  | nil : Gap []
  | blank {c : Char} {g : List Char} (hc : isBlank c = true) (h : Gap g) : Gap (c :: g)
  | comment {line g : List Char} (hline : '\n' ∉ line) (h : Gap g) :
      Gap ('/' :: '/' :: (line ++ '\n' :: g))

/-- A comment without a line feed. -/
def OpenComment (cs : List Char) : Prop := ∃ line, cs = '/' :: '/' :: line ∧ '\n' ∉ line

/-- No gap goes on here. -/
def EndsGap (cs : List Char) : Prop :=
  (∀ c, cs.head? = some c → isBlank c = false) ∧ ∀ rest, cs ≠ '/' :: '/' :: rest

theorem endsGap_nil : EndsGap [] := ⟨nofun, nofun⟩

theorem exists_line (cs : List Char) :
    '\n' ∉ cs ∨ ∃ line rest, cs = line ++ '\n' :: rest ∧ '\n' ∉ line := by
  induction cs with
  | nil => exact .inl nofun
  | cons c cs ih =>
    by_cases hc : c = '\n'
    · subst hc
      exact .inr ⟨[], cs, rfl, nofun⟩
    · rcases ih with h | ⟨line, rest, rfl, h⟩
      · left
        simpa [Ne.symm hc] using h
      · right
        exact ⟨c :: line, rest, rfl, by simpa [Ne.symm hc] using h⟩

/-- Every text begins with a gap that ends where no gap goes on, or inside a comment. -/
theorem exists_gap (cs : List Char) :
    (∃ g rest, cs = g ++ rest ∧ Gap g ∧ EndsGap rest) ∨
      ∃ g c, cs = g ++ c ∧ Gap g ∧ OpenComment c := by
  generalize hn : cs.length = n
  induction n using Nat.strongRecOn generalizing cs with
  | ind n ih =>
    cases cs with
    | nil => exact .inl ⟨[], [], rfl, .nil, endsGap_nil⟩
    | cons c cs =>
      rw [List.length_cons] at hn
      by_cases hblank : isBlank c = true
      · rcases ih cs.length (by omega) cs rfl with ⟨g, rest, rfl, hg, hrest⟩ | ⟨g, o, rfl, hg, ho⟩
        · exact .inl ⟨c :: g, rest, rfl, .blank hblank hg, hrest⟩
        · exact .inr ⟨c :: g, o, rfl, .blank hblank hg, ho⟩
      · by_cases hcomment : ∃ rest, c :: cs = '/' :: '/' :: rest
        · obtain ⟨rest, hrest⟩ := hcomment
          cases hrest
          rw [List.length_cons] at hn
          rcases exists_line rest with hline | ⟨line, more, rfl, hline⟩
          · exact .inr ⟨[], _, rfl, .nil, rest, rfl, hline⟩
          · have hlt : more.length < n := by
              rw [List.length_append, List.length_cons] at hn
              omega
            rcases ih more.length hlt more rfl with ⟨g, rest, rfl, hg, hrest⟩ |
                ⟨g, o, rfl, hg, ho⟩
            · exact .inl ⟨_, rest, by simp, .comment hline hg, hrest⟩
            · exact .inr ⟨'/' :: '/' :: (line ++ '\n' :: g), o, by simp, .comment hline hg, ho⟩
        · refine .inl ⟨[], c :: cs, rfl, .nil, fun d hd => ?_, fun rest h => hcomment ⟨rest, h⟩⟩
          cases hd
          simpa using hblank

/-- What follows the first line feed. -/
theorem afterLine_append {line : List Char} (h : '\n' ∉ line) (rest : List Char) :
    CharStream.afterLine (line ++ '\n' :: rest) = rest := by
  induction line with
  | nil => simp [CharStream.afterLine]
  | cons c line ih =>
    simp only [List.mem_cons, not_or] at h
    rw [List.cons_append, CharStream.afterLine, if_neg (Ne.symm h.1), ih h.2]

theorem afterLine_eq_nil {line : List Char} (h : '\n' ∉ line) :
    CharStream.afterLine line = [] := by
  induction line with
  | nil => rfl
  | cons c line ih =>
    simp only [List.mem_cons, not_or] at h
    rw [CharStream.afterLine, if_neg (Ne.symm h.1), ih h.2]

theorem Gap.of_blank {c : Char} {cs : List Char} (h : Gap (c :: cs)) (hc : isBlank c = true) :
    Gap cs := by
  cases h with
  | blank _ h => exact h
  | comment => cases hc

theorem Gap.of_comment {cs : List Char} (h : Gap ('/' :: '/' :: cs)) :
    '\n' ∈ cs ∧ Gap (CharStream.afterLine cs) := by
  cases h with
  | blank hc => cases hc
  | comment hline h =>
    rw [afterLine_append hline]
    exact ⟨by simp, h⟩

/-- A text that ends in a comment is no gap of whole comments. -/
theorem not_gap_openComment {g o : List Char} (hg : Gap g) (ho : OpenComment o) :
    ¬Gap (g ++ o) := by
  obtain ⟨line, rfl, hline⟩ := ho
  induction hg with
  | nil => exact fun h => hline h.of_comment.1
  | blank hc _ ih => exact fun h => ih (h.of_blank hc)
  | comment hline' _ ih =>
    intro h
    simp only [List.cons_append, List.append_assoc] at h
    have hafter := h.of_comment.2
    rw [afterLine_append hline'] at hafter
    exact ih hafter

/-! ## The scanner in a gap -/

namespace Scanner

/-- The scanner of the characters, from a position on. -/
def ofChars (cs : List Char) (p : Position) : Scanner := ⟨⟨[], cs⟩, p⟩

/-- The scanner takes the blanks together, then looks for a comment. -/
theorem skipGap_ofChars (cs : List Char) (p : Position) :
    skipGap (ofChars cs p) =
      if CharStream.opensComment ⟨[], cs.dropWhile isBlank⟩ then
        skipGap (ofChars (CharStream.afterLine (cs.dropWhile isBlank))
          (p.pastAll (cs.takeWhile isBlank)).nextLine)
      else
        ofChars (cs.dropWhile isBlank) (p.pastAll (cs.takeWhile isBlank)) := by
  rw [skipGap]
  rfl

theorem skipGap_blank {c : Char} (hc : isBlank c = true) (cs : List Char) (p : Position) :
    skipGap (ofChars (c :: cs) p) = skipGap (ofChars cs (p.past c)) := by
  rw [skipGap_ofChars (c :: cs), skipGap_ofChars cs, List.dropWhile_cons_of_pos hc,
    List.takeWhile_cons_of_pos hc]
  rfl

theorem skipGap_comment (cs : List Char) (p : Position) :
    skipGap (ofChars ('/' :: '/' :: cs) p) =
      skipGap (ofChars (CharStream.afterLine cs) p.nextLine) := by
  have hafter : CharStream.afterLine ('/' :: '/' :: cs) = CharStream.afterLine cs := by
    simp [CharStream.afterLine]
  have hdrop : ('/' :: '/' :: cs).dropWhile isBlank = '/' :: '/' :: cs := rfl
  have htake : ('/' :: '/' :: cs).takeWhile isBlank = [] := rfl
  have hopens : CharStream.opensComment ⟨[], '/' :: '/' :: cs⟩ = true := rfl
  rw [skipGap_ofChars, hdrop, htake, hopens, if_pos rfl, hafter]
  rfl

theorem opensComment_endsGap {cs : List Char} (h : EndsGap cs) :
    CharStream.opensComment ⟨[], cs⟩ = false := by
  simp only [CharStream.opensComment, CharStream.remaining, List.nil_append]
  split
  · next rest => exact absurd rfl (h.2 rest)
  · rfl

theorem skipGap_endsGap {cs : List Char} (h : EndsGap cs) (p : Position) :
    skipGap (ofChars cs p) = ofChars cs p := by
  have hdrop : cs.dropWhile isBlank = cs := by
    cases cs with
    | nil => rfl
    | cons c cs => exact List.dropWhile_cons_of_neg (by simp [h.1 c rfl])
  have htake : cs.takeWhile isBlank = [] := by
    cases cs with
    | nil => rfl
    | cons c cs => exact List.takeWhile_cons_of_neg (by simp [h.1 c rfl])
  rw [skipGap_ofChars, hdrop, htake, opensComment_endsGap h]
  rfl

/-- The scanner passes over a gap, and the position goes along. -/
theorem skipGap_append {g : List Char} (hg : Gap g) (rest : List Char) (p : Position) :
    skipGap (ofChars (g ++ rest) p) = skipGap (ofChars rest (p.pastAll g)) := by
  induction hg generalizing p with
  | nil => rfl
  | blank hc _ ih => rw [List.cons_append, skipGap_blank hc, ih, Position.pastAll_cons]
  | @comment line g hline _ ih =>
    have hstart : ∀ q : Position, ((q.past '/').past '/').nextLine = q.nextLine := fun _ => rfl
    have hposition : p.pastAll ('/' :: '/' :: (line ++ '\n' :: g)) = p.nextLine.pastAll g := by
      rw [Position.pastAll_cons, Position.pastAll_cons, Position.pastAll_append,
        Position.pastAll_cons]
      have hfeed : ∀ q : Position, q.past '\n' = q.nextLine := fun _ => rfl
      rw [hfeed, Position.nextLine_pastAll hline, hstart]
    rw [hposition, List.cons_append, List.cons_append, List.append_assoc, List.cons_append,
      skipGap_comment, afterLine_append hline, ih]

theorem skipGap_gap {g rest : List Char} (hg : Gap g) (hrest : EndsGap rest) (p : Position) :
    skipGap (ofChars (g ++ rest) p) = ofChars rest (p.pastAll g) := by
  rw [skipGap_append hg, skipGap_endsGap hrest]

/-- A comment without a line feed ends the text all the same, on the line below. -/
theorem skipGap_openComment {g c : List Char} (hg : Gap g) (hc : OpenComment c) (p : Position) :
    skipGap (ofChars (g ++ c) p) = ofChars [] (p.pastAll (g ++ c)).nextLine := by
  obtain ⟨line, rfl, hline⟩ := hc
  have hslashes : '\n' ∉ '/' :: '/' :: line := by simpa using hline
  rw [skipGap_append hg, skipGap_comment, afterLine_eq_nil hline, skipGap_endsGap endsGap_nil,
    Position.pastAll_append, Position.nextLine_pastAll hslashes]

end Scanner

end WhileLang
