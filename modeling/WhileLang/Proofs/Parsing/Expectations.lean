import WhileLang.Proofs.Parsing.AnnouncingRules
import WhileLang.Proofs.Parsing.FirstError
import WhileLang.Proofs.Parsing.Layout

/-!
# What an error expects

The list in a syntax error can be trusted, with one exception (`expected_spec`). The kind that was
found is not on it, and every kind on it could have stood there: some program goes on with it.

After a sign before an operand the list is the one for operands, the same as without the sign, and
it has the signs. No program has a second sign there, so the signs on the list do not fit, and one
of them may be the kind that was found.

* `Expected.Lists`: what can be read off the text of a list.
-/

namespace WhileLang

open Grammar WhileLang.Parser TokenStream

/-! ## The text of a list -/

namespace Expected

/-- The characters of a list that are not braces or blanks. -/
def isEntry (c : Char) : Bool := c != '\x7b' && c != '\x7d' && c != ' '

/-- The entries of a list, as its text has them between commas. -/
def entries (e : Expected) : List (List Char) := (e.text.toList.filter isEntry).splitOn ','

/-- The kind is on the list. -/
def Lists (e : Expected) (k : TokenKind) : Prop := k.text.toList ∈ e.entries

instance (e : Expected) (k : TokenKind) : Decidable (e.Lists k) :=
  inferInstanceAs (Decidable (_ ∈ _))

theorem text_entry (k : TokenKind) :
    k.text.toList.filter isEntry = k.text.toList ∧ ',' ∉ k.text.toList ∧ k.text.toList ≠ [] := by
  cases k <;> decide

theorem filter_intercalate (q : Char → Bool) (sep : List Char) (words : List (List Char)) :
    (sep.intercalate words).filter q = (sep.filter q).intercalate (words.map (List.filter q)) := by
  induction words with
  | nil => rfl
  | cons word words ih =>
    cases words with
    | nil => simp
    | cons word' words =>
      show _ = (sep.filter q).intercalate (word.filter q :: word'.filter q :: words.map _)
      rw [List.intercalate_cons_cons, List.intercalate_cons_cons, List.filter_append,
        List.filter_append, ih]
      rfl

/-- Without braces and blanks, a list is its words with commas between them. -/
theorem filter_text_oneOf (ks : List TokenKind) :
    (oneOf ks).text.toList.filter isEntry = [','].intercalate (ks.map fun k => k.text.toList) := by
  have hwords : ((ks.map TokenKind.text).map String.toList).map (List.filter isEntry) =
      ks.map fun k => k.text.toList := by
    rw [List.map_map, List.map_map]
    exact List.map_congr_left fun k _ => (text_entry k).1
  have hopen : "\x7b ".toList.filter isEntry = [] := by decide
  have hclose : " \x7d".toList.filter isEntry = [] := by decide
  have hcomma : ", ".toList.filter isEntry = [','] := by decide
  show ("\x7b " ++ String.intercalate ", " (ks.map TokenKind.text) ++ " \x7d").toList.filter _ = _
  rw [String.toList_append, String.toList_append, List.filter_append, List.filter_append, hopen,
    hclose, String.toList_intercalate, filter_intercalate, hwords, hcomma, List.append_nil]
  rfl

/-- The entries of a list are the words for its kinds. Only the empty list has an entry for none. -/
theorem entries_eq {e : Expected} (h : e.kinds ≠ []) :
    e.entries = e.kinds.map fun k => k.text.toList := by
  cases e with
  | oneOf ks =>
    have hcommas : ∀ word ∈ ks.map fun k => k.text.toList, ',' ∉ word := by
      intro word hword
      obtain ⟨k, -, rfl⟩ := List.mem_map.mp hword
      exact (text_entry k).2.1
    rw [entries, filter_text_oneOf]
    exact List.splitOn_intercalate ',' hcommas (by simpa [kinds] using h)
  | statement => decide
  | operand => decide

/-- What the text of a list has is what the list stands for. -/
theorem lists_iff (e : Expected) (k : TokenKind) : e.Lists k ↔ k ∈ e.kinds := by
  by_cases h : e.kinds = []
  · have hnone : e = .oneOf [] := by
      cases e with
      | oneOf ks => exact congrArg oneOf h
      | statement => cases h
      | operand => cases h
    have hentries : e.entries = [[]] := by
      rw [hnone]
      decide
    rw [h, Lists, hentries, List.mem_singleton]
    exact ⟨fun hempty => absurd hempty (text_entry k).2.2, nofun⟩
  · rw [Lists, entries_eq h, List.mem_map]
    constructor
    · rintro ⟨k', hk', htext⟩
      rwa [← TokenKind.eq_of_text_eq (String.toList_injective htext)]
    · exact fun hk => ⟨k, hk, rfl⟩

end Expected

/-! ## Errors -/

/-- What is expected after tokens of a program is right, up to the signs after a sign. -/
theorem Grammar.Apt.fits {before : List TokenKind} {e : Expected} {k : TokenKind}
    (h : Apt (.rule .program) before e k) :
    (¬AfterPrefix before → k ∉ e.kinds ∧ ∀ k' ∈ e.kinds, Viable (before ++ [k'])) ∧
      (AfterPrefix before → (k ∈ e.kinds → k ∈ signs) ∧
        ∀ k' ∈ e.kinds, (Viable (before ++ [k']) ↔ k' ∉ signs)) := by
  cases h with
  | exact hk h =>
    refine ⟨fun _ => ⟨hk, h⟩, fun hsign => ⟨fun hmem => absurd hmem hk, fun k' hk' => ?_⟩⟩
    exact ⟨fun hviable hk' => not_viable_sign hsign hk' hviable, fun _ => h k' hk'⟩
  | signed hks hs hname hk h =>
    subst hks
    have hsign := afterPrefix_of_viable hname hs
    refine ⟨fun hnot => absurd hsign hnot, fun _ => ⟨hk, fun k' hk' => ?_⟩⟩
    exact ⟨fun hviable hk' => not_viable_sign hsign hk' hviable, h k' hk'⟩

theorem Grammar.AfterPrefix.not_unsigned {ks : List TokenKind} (h : AfterPrefix ks) :
    ¬Unsigned ks := by
  obtain ⟨js, s, rfl, hs⟩ := h
  intro hunsigned
  apply hunsigned s (by simp)
  rcases hs with rfl | ⟨rfl, -⟩ <;> decide

/-- The tokens before the one that an error is about, and what is expected there. -/
theorem exists_apt_of_run {source : String} {e : Expected} {k : TokenKind} {p : Position}
    (h : (run program (.ofString source)).1 = .error (.unexpected e k p)) :
    ∃ i t, (collectTokens source).1[i]? = some t ∧ t.kind = k ∧ t.position = p ∧
      let before := ((collectTokens source).1.take i).map Token.kind
      Apt (.rule .program) before e k ∧ (AfterPrefix before → e = .operand) := by
  have hran := announces_program (readable_of_run_program (Prod.ext h rfl))
  generalize run program (.ofString source) = o at h hran
  cases hran with
  | success | unreadable => cases h
  | @mismatch us t _ rest hs ht hapt hsign =>
    cases h
    have hlisting : (collectTokens source).1 = (us ++ rest).listing :=
      congrArg TokenStream.listing hs
    refine ⟨us.length, t, ?_, rfl, rfl, ?_⟩
    · rw [hlisting, getElem?_listing_append us ht]
    · rw [hlisting, take_listing_append]
      exact ⟨hapt, fun hprefix => hsign.resolve_left hprefix.not_unsigned⟩

/-- **The list of an error can be trusted.** A text is rejected with a list of kinds at one of its
tokens. Unless the token before is a sign before an operand, the kind found is not on the list, and
every kind on the list fits: some program goes on with it. After such a sign the list is the one for
operands. Only the signs on it do not fit, and only a sign can be found that is on it. -/
theorem expected_spec (o : Options) (source : String) (e : Expected) (k : TokenKind)
    (p : Position) (ho : o.mode = .syntactic)
    (he : (analyze o source).error? = some (.unexpected e k p)) :
    ∃ i t, (collectTokens source).1[i]? = some t ∧ t.kind = k ∧ t.position = p ∧
      let before := ((collectTokens source).1.take i).map Token.kind
      (¬AfterPrefix before → ¬e.Lists k ∧ ∀ k', e.Lists k' → Viable (before ++ [k'])) ∧
        (AfterPrefix before → e = .operand ∧ (e.Lists k → k ∈ signs) ∧
          ∀ k', e.Lists k' → (Viable (before ++ [k']) ↔ k' ∉ signs)) := by
  have hparse := exists_run_of_rejected ho he
  rw [parseText_fst] at hparse
  obtain ⟨i, t, hi, hk, hp, hapt, hoperand⟩ := exists_apt_of_run hparse
  obtain ⟨hfits, hsigned⟩ := hapt.fits
  simp only [Expected.lists_iff]
  exact ⟨i, t, hi, hk, hp, hfits, fun hprefix => ⟨hoperand hprefix, hsigned hprefix⟩⟩

theorem expected_spec_missing_operand :
    (analyze .standard "program p : print end").error? =
        some (.unexpected .operand .endWord ⟨1, 19⟩) ∧
      ∃ i t, (collectTokens "program p : print end").1[i]? = some t ∧ t.kind = .endWord ∧
        t.position = ⟨1, 19⟩ ∧
        let before := ((collectTokens "program p : print end").1.take i).map Token.kind
        (¬AfterPrefix before → ¬Expected.operand.Lists .endWord ∧
            ∀ k', Expected.operand.Lists k' → Viable (before ++ [k'])) ∧
          (AfterPrefix before → Expected.operand = .operand ∧
            (Expected.operand.Lists .endWord → .endWord ∈ signs) ∧
            ∀ k', Expected.operand.Lists k' → (Viable (before ++ [k']) ↔ k' ∉ signs)) := by
  have herror : (analyze .standard "program p : print end").error? =
      some (.unexpected .operand .endWord ⟨1, 19⟩) := by decide +kernel
  exact ⟨herror, expected_spec .standard _ _ _ _ rfl herror⟩

/-- After a sign, the kind found can be on the list. -/
theorem not_expected_fits :
    ¬∀ (o : Options) (source : String) (e : Expected) (k : TokenKind) (p : Position),
      o.mode = .syntactic → (analyze o source).error? = some (.unexpected e k p) →
      ∃ i t, (collectTokens source).1[i]? = some t ∧ t.kind = k ∧ t.position = p ∧ ¬e.Lists k ∧
        ∀ k', e.Lists k' → Viable (((collectTokens source).1.take i).map Token.kind ++ [k']) := by
  intro h
  have herror : (analyze .standard "program p : print not not a end").error? =
      some (.unexpected .operand .notWord ⟨1, 23⟩) := by decide +kernel
  obtain ⟨-, -, -, -, -, hlists, -⟩ := h .standard _ _ _ _ rfl herror
  exact hlists (by decide)

end WhileLang
