import WhileLang.Analysis.Basic
import WhileLang.Proofs.Lexing.Scanning

/-!
# The scanner divides its text

Every text is a sequence of tokens with gaps around them, each token as long as it can be, up to
its end or up to a character that starts no token. The scanner finds these tokens, at the
positions where they stand (`divides_ofChars`), and so do the tokens of a text that are listed
(`collectTokens_partition`).
-/

namespace WhileLang

/-- A token and the gap before it. -/
structure Piece where
  gap : List Char
  token : Token

/-- The characters of a piece. -/
def Piece.chars (x : Piece) : List Char := x.gap ++ x.token.text.toList

/-- The gap after all tokens. Where the text ends, a comment need not have its line feed. -/
def LastGap (last rest : List Char) : Prop :=
  Gap last ∨ rest = [] ∧ ∃ g c, last = g ++ c ∧ Gap g ∧ OpenComment c

/-- The text `cs`, which stands at the position `p`, is the pieces, the last gap and a rest that is
empty or starts no token. The stream holds the tokens of the pieces, with their positions. -/
structure Divides (p : Position) (cs : List Char) (pieces : List Piece) (last rest : List Char)
    (s : TokenStream) : Prop where
  text : cs = pieces.flatMap Piece.chars ++ (last ++ rest)
  gaps : ∀ x ∈ pieces, Gap x.gap
  lastGap : LastGap last rest
  spelled : ∀ x ∈ pieces, x.token.Spelled
  maximal : ∀ before x after, pieces = before ++ x :: after →
    Maximal x.token.kind (after.flatMap Piece.chars ++ (last ++ rest))
  tokens : s.tokens = pieces.map Piece.token
  positions : ∀ before x after, pieces = before ++ x :: after →
    x.token.position = (p.pastAll (before.flatMap Piece.chars ++ x.gap)).nextColumn
  ended : rest = [] →
    (Gap last ∧ s.ending = .endOfText (p.pastAll cs).nextColumn) ∨
      ¬Gap last ∧ s.ending = .endOfText (p.pastAll cs).nextLine.nextColumn
  failed : ∀ c more, rest = c :: more → ∃ fault, StartsNoToken c more fault ∧
    s.ending = .failure ⟨fault, (p.pastAll (pieces.flatMap Piece.chars ++ last)).nextColumn⟩

namespace Divides

open Scanner TokenStream

theorem nil {p : Position} {cs last rest : List Char} {s : TokenStream}
    (htext : cs = last ++ rest) (hlast : LastGap last rest) (htokens : s.tokens = [])
    (hended : rest = [] → (Gap last ∧ s.ending = .endOfText (p.pastAll cs).nextColumn) ∨
      ¬Gap last ∧ s.ending = .endOfText (p.pastAll cs).nextLine.nextColumn)
    (hfailed : ∀ c more, rest = c :: more → ∃ fault, StartsNoToken c more fault ∧
      s.ending = .failure ⟨fault, (p.pastAll last).nextColumn⟩) :
    Divides p cs [] last rest s :=
  have hnone : ∀ (before : List Piece) x after, [] ≠ before ++ x :: after := by
    intro before x after h
    cases before <;> cases h
  ⟨htext, nofun, hlast, nofun, fun before x after h => absurd h (hnone before x after), htokens,
    fun before x after h => absurd h (hnone before x after), hended, hfailed⟩

theorem cons {p : Position} {g : List Char} {t : Token} {cs more : List Char}
    {pieces : List Piece} {last rest : List Char} {s : TokenStream} (hg : Gap g)
    (ht : FirstToken t cs more) (hp : t.position = (p.pastAll g).nextColumn)
    (h : Divides ((p.pastAll g).pastAll t.text.toList) more pieces last rest s) :
    Divides p (g ++ cs) (⟨g, t⟩ :: pieces) last rest (s.cons t) := by
  have hposition : ∀ ds, p.pastAll ((Piece.mk g t).chars ++ ds) =
      ((p.pastAll g).pastAll t.text.toList).pastAll ds := by
    intro ds
    rw [Piece.chars, Position.pastAll_append, Position.pastAll_append]
  have hcs : g ++ cs = (Piece.mk g t).chars ++ more := by
    rw [ht.text, Piece.chars, List.append_assoc]
  refine ⟨?_, ?_, h.lastGap, ?_, ?_, ?_, ?_, ?_, ?_⟩
  · rw [hcs, List.flatMap_cons, List.append_assoc, ← h.text]
  · intro x hx
    rcases List.mem_cons.mp hx with rfl | hx
    · exact hg
    · exact h.gaps x hx
  · intro x hx
    rcases List.mem_cons.mp hx with rfl | hx
    · exact ht.spelled
    · exact h.spelled x hx
  · intro before x after heq
    cases before with
    | nil =>
      cases heq
      rw [← h.text]
      exact ht.maximal
    | cons b before => exact h.maximal before x after (List.cons.inj heq).2
  · change t :: s.tokens = _
    rw [h.tokens, List.map_cons]
  · intro before x after heq
    cases before with
    | nil =>
      cases heq
      exact hp
    | cons b before =>
      obtain ⟨rfl, hpieces⟩ := List.cons.inj heq
      rw [List.flatMap_cons, List.append_assoc, hposition]
      exact h.positions before x after hpieces
  · intro hrest
    rw [hcs, hposition]
    exact h.ended hrest
  · intro c more' hrest
    rw [List.flatMap_cons, List.append_assoc, hposition]
    exact h.failed c more' hrest

end Divides

open Scanner TokenStream in
/-- What the scanner reads divides the text. -/
theorem divides_ofChars (cs : List Char) (p : Position) :
    ∃ pieces last rest, Divides p cs pieces last rest (ofScanner (ofChars cs p)) := by
  generalize hn : cs.length = n
  induction n using Nat.strongRecOn generalizing cs p with
  | ind n ih =>
    rcases exists_gap cs with ⟨g, rest, rfl, hg, hrest⟩ | ⟨g, c, rfl, hg, hc⟩
    · cases rest with
      | nil =>
        rw [List.append_nil, ofScanner_gap hg]
        exact ⟨[], g, [], .nil (by simp) (.inl hg) rfl (fun _ => .inl ⟨hg, rfl⟩) nofun⟩
      | cons c rest =>
        rcases exists_firstToken hrest (p.pastAll g).nextColumn with ⟨t, more, hp, ht⟩ |
            ⟨fault, hfault⟩
        · have hlt : more.length < n := by
            have htext := congrArg List.length ht.text
            have hpos := List.length_pos_iff.mpr ht.spelled.text_ne_nil
            rw [List.length_append] at htext hn
            omega
          obtain ⟨pieces, last, rest', h⟩ := ih more.length hlt more
            ((p.pastAll g).pastAll t.text.toList) rfl
          rw [ofScanner_token hg ht hp]
          exact ⟨_, last, rest', .cons hg ht hp h⟩
        · rw [ofScanner_fault hg hfault]
          refine ⟨[], g, c :: rest, .nil rfl (.inl hg) rfl nofun fun d more hd => ?_⟩
          cases hd
          exact ⟨fault, hfault, rfl⟩
    · rw [ofScanner_openComment hg hc]
      exact ⟨[], g ++ c, [], .nil (by simp) (.inr ⟨rfl, g, c, rfl, hg, hc⟩) rfl
        (fun _ => .inr ⟨not_gap_openComment hg hc, rfl⟩) nofun⟩

/-! ## The tokens of a text -/

theorem spelled_ofString (source : String) :
    ∀ w ∈ (TokenStream.ofString source).tokens, w.Spelled := by
  obtain ⟨pieces, last, rest, h⟩ := divides_ofChars source.toList .start
  have htokens : (TokenStream.ofString source).tokens = pieces.map Piece.token := h.tokens
  intro w hw
  rw [htokens] at hw
  obtain ⟨x, hx, rfl⟩ := List.mem_map.mp hw
  exact h.spelled x hx

/-- Every token that is listed is one of the text's own, or its end. -/
theorem spelled_or_end_of_mem_collectTokens {source : String} {t : Token}
    (h : t ∈ (collectTokens source).1) : t.Spelled ∨ ∃ p, t = .ofKind .endOfText p := by
  have hspelled := spelled_ofString source
  change t ∈ (TokenStream.ofString source).listing at h
  unfold TokenStream.listing at h
  split at h
  · rcases List.mem_append.mp h with hmem | hmem
    · exact .inl (hspelled t hmem)
    · exact .inr ⟨_, List.mem_singleton.mp hmem⟩
  · exact .inl (hspelled t h)

theorem StartsNoToken.unique {c : Char} {rest : List Char} {fault fault' : LexFault}
    (h : StartsNoToken c rest fault) (h' : StartsNoToken c rest fault') : fault = fault' := by
  have hkind := Scanner.symbolKind_fault h
  rw [Scanner.symbolKind_fault h'] at hkind
  exact (Except.error.inj hkind).symm

namespace Token

theorem text_of_keyword {t : Token} (h : t.kind ∈ TokenKind.keywords) : t.text = t.kind.text := by
  obtain ⟨k, value, p⟩ := t
  have hk : k ∈ TokenKind.keywords := h
  cases k <;> first | rfl | exact absurd hk (by decide)

/-- Only words begin with a letter. -/
theorem Spelled.eq_ofWord {t : Token} (h : t.Spelled) (hword : IsWord t.text.toList) :
    t = ofWord t.text t.position := by
  obtain ⟨c, tail, hlist⟩ := List.exists_cons_of_ne_nil h.text_ne_nil
  rw [hlist] at hword
  rcases h.cases with ⟨-, ht⟩ | ⟨hk, -, hdigits⟩ | ⟨hk, ht⟩
  · exact ht
  · have hvalue : t.text = t.value := by simp [text, hk]
    rw [← hvalue, hlist] at hdigits
    have halpha := Scanner.isAlpha_eq_false_of_isDigit (hdigits c List.mem_cons_self)
    rw [hword.1] at halpha
    cases halpha
  · rw [ht, text_ofKind (.inr hk)] at hlist
    have halpha := (Scanner.symbol_no_word hk hlist).1
    rw [hword.1] at halpha
    cases halpha

/-- A word is a reserved word if it is spelled like one, and otherwise an identifier. -/
theorem Spelled.word_kind {t : Token} (h : t.Spelled) (hword : IsWord t.text.toList) :
    (t.kind ∈ TokenKind.keywords ↔ t.text ∈ TokenKind.keywords.map TokenKind.text) ∧
      (t.kind ∉ TokenKind.keywords → t.kind = .identifier ∧ t.value = t.text) := by
  have ht := h.eq_ofWord hword
  refine ⟨⟨?_, ?_⟩, ?_⟩
  · intro hk
    rw [text_of_keyword hk]
    exact List.mem_map_of_mem hk
  · intro hk
    obtain ⟨k, hmem, htext⟩ := List.mem_map.mp hk
    rw [ht, ← htext]
    unfold ofWord
    rw [TokenKind.keyword?_text k hmem]
    exact hmem
  · intro hk
    have hid : t.kind = .identifier := by
      rcases kind_ofWord t.text t.position with hkind | hkind
      · rw [ht]
        exact hkind
      · rw [← ht] at hkind
        exact absurd hkind hk
    exact ⟨hid, by simp [text, hid]⟩

end Token

/-- The text is the pieces, the last gap and a rest, and the pieces are the tokens that are listed.
The rest is empty, or it shows the character that the lexical error names, where it stands. -/
structure Partition (source : String) (pieces : List Piece) (last rest : List Char) : Prop where
  text : source.toList = pieces.flatMap Piece.chars ++ (last ++ rest)
  gaps : ∀ x ∈ pieces, Gap x.gap
  lastGap : LastGap last rest
  spelled : ∀ x ∈ pieces, x.token.Spelled
  maximal : ∀ before x after, pieces = before ++ x :: after →
    Maximal x.token.kind (after.flatMap Piece.chars ++ (last ++ rest))
  words : ∀ x ∈ pieces, IsWord x.token.text.toList →
    (x.token.kind ∈ TokenKind.keywords ↔
      x.token.text ∈ TokenKind.keywords.map TokenKind.text) ∧
    (x.token.kind ∉ TokenKind.keywords →
      x.token.kind = .identifier ∧ x.token.value = x.token.text)
  ended : rest = [] → (collectTokens source).2 = none ∧
    ∃ q, (collectTokens source).1 = pieces.map Piece.token ++ [.ofKind .endOfText q]
  failed : rest ≠ [] → (∃ e, (collectTokens source).2 = some e) ∧
    (collectTokens source).1 = pieces.map Piece.token
  fault_iff : ∀ fault q, (collectTokens source).2 = some ⟨fault, q⟩ ↔
    ∃ c more, rest = c :: more ∧ StartsNoToken c more fault ∧
      q = (Position.start.pastAll (pieces.flatMap Piece.chars ++ last)).nextColumn

/-- The tokens of every text partition it. -/
theorem collectTokens_partition (source : String) :
    ∃ pieces last rest, Partition source pieces last rest := by
  obtain ⟨pieces, last, rest, h⟩ := divides_ofChars source.toList .start
  have hstream : Scanner.ofChars source.toList .start = .ofString source := rfl
  rw [hstream] at h
  change Divides _ _ _ _ _ (TokenStream.ofString source) at h
  refine ⟨pieces, last, rest, h.text, h.gaps, h.lastGap, h.spelled, h.maximal,
    fun x hx hword => (h.spelled x hx).word_kind hword, ?_, ?_, ?_⟩
  · intro hrest
    have hending : ∃ q, (TokenStream.ofString source).ending = .endOfText q := by
      rcases h.ended hrest with ⟨-, hend⟩ | ⟨-, hend⟩
      · exact ⟨_, hend⟩
      · exact ⟨_, hend⟩
    obtain ⟨q, hq⟩ := hending
    refine ⟨?_, q, ?_⟩
    · simp [collectTokens, TokenStream.error?, hq]
    · simp [collectTokens, TokenStream.listing, hq, h.tokens]
  · intro hrest
    obtain ⟨c, more, rfl⟩ := List.exists_cons_of_ne_nil hrest
    obtain ⟨fault, -, hq⟩ := h.failed c more rfl
    constructor
    · simp [collectTokens, TokenStream.error?, hq]
    · simp [collectTokens, TokenStream.listing, hq, h.tokens]
  · intro fault q
    cases rest with
    | nil =>
      have hnone : (collectTokens source).2 = none := by
        rcases h.ended rfl with ⟨-, hend⟩ | ⟨-, hend⟩
        all_goals simp [collectTokens, TokenStream.error?, hend]
      simp [hnone]
    | cons c more =>
      obtain ⟨fault', hfault', hq⟩ := h.failed c more rfl
      have hsome : (collectTokens source).2 = some ⟨fault',
          (Position.start.pastAll (pieces.flatMap Piece.chars ++ last)).nextColumn⟩ := by
        simp [collectTokens, TokenStream.error?, hq]
      constructor
      · intro he
        rw [hsome] at he
        cases he
        exact ⟨c, more, rfl, hfault', rfl⟩
      · rintro ⟨c', more', heq, hfault, rfl⟩
        cases heq
        rw [hfault.unique hfault']
        exact hsome

end WhileLang
