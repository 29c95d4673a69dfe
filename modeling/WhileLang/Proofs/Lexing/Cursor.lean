import WhileLang.Analysis.Basic
import WhileLang.Proofs.Lexing.Scanning
import WhileLang.Proofs.Parsing.Runs
import WhileLang.Token.Lexer

/-!
# The lexer as a cursor

A text has one stream: its tokens, and then for ever the lexical error that stops them or the end
of the text. A lexer is a cursor into this stream. Whatever is asked of it, in whatever order, it
answers as the place says that it has reached, and nothing else of its past matters
(`lexer_isCursor`).

* `Lexer.unread`: all that a lexer still gives. What an operation does is said on it
  (`Lexer.advance_spec`, `Lexer.tokenize_spec`).
* `TokenStream.answer`, `TokenStream.placeAfter`: the cursor, by the place alone.
* `Lexer.At`: the lexer stands at a place of a stream, which every call keeps (`At.call`).
-/

namespace WhileLang

/-! ## Calls -/

/-- What can be asked of a lexer. -/
inductive LexerCall where
  | advance | tokenize | current | currentKind
deriving DecidableEq, Repr

/-- The calls that read tokens. -/
def LexerCall.reads : LexerCall → Bool
  | advance | tokenize => true
  | current | currentKind => false

inductive LexerAnswer where
  | token (result : Except LexError Token)
  | tokens (result : Except LexError (List Token))
  | current (token? : Option Token)
  | kind (kind? : Option TokenKind)

namespace LexerAnswer

/-- The error that a call has failed with. -/
def error? : LexerAnswer → Option LexError
  | token (.error e) | tokens (.error e) => some e
  | _ => none

theorem error?_token_iff {result : Except LexError Token} {e : LexError} :
    (token result).error? = some e ↔ result = .error e := by
  cases result <;> simp [error?]

theorem error?_tokens_iff {result : Except LexError (List Token)} {e : LexError} :
    (tokens result).error? = some e ↔ result = .error e := by
  cases result <;> simp [error?]

end LexerAnswer

namespace Lexer

def call (l : Lexer) : LexerCall → LexerAnswer × Lexer
  | .advance => (.token l.advance.1, l.advance.2)
  | .tokenize => (.tokens l.tokenize.1, l.tokenize.2)
  | .current => (.current l.current?, l)
  | .currentKind => (.kind l.currentKind?, l)

/-- The answers to calls that are made one after the other. -/
def answers (l : Lexer) : List LexerCall → List LexerAnswer
  | [] => []
  | c :: calls => (l.call c).1 :: (l.call c).2.answers calls

/-- The lexer that the calls leave. -/
def afterCalls (l : Lexer) : List LexerCall → Lexer
  | [] => l
  | c :: calls => (l.call c).2.afterCalls calls

open TokenStream in
/-- All that a lexer still gives. -/
def unread (l : Lexer) : TokenStream :=
  match l.failure? with
  | none => ofScanner l.scanner
  | some e => ofTokens [] (.failure e)

end Lexer

/-! ## The cursor -/

namespace TokenStream

/-- The stream after its first `n` tokens. Its end is never left behind. -/
def after (s : TokenStream) (n : Nat) : TokenStream := ofTokens (s.tokens.drop n) s.ending

/-- The element at a place: one of the tokens, or what comes for ever after them. -/
def element (s : TokenStream) (n : Nat) : Except LexError Token := (s.after n).head

/-- All tokens, the end of the text included, or the error that comes in its place. -/
def whole (s : TokenStream) : Except LexError (List Token) :=
  match s.error? with
  | none => .ok s.listing
  | some e => .error e

theorem whole_eq_error_iff {s : TokenStream} {e : LexError} :
    s.whole = .error e ↔ s.error? = some e := by
  unfold whole
  cases s.error? <;> simp

theorem whole_eq_ok_iff {s : TokenStream} {ts : List Token} :
    s.whole = .ok ts ↔ s.listing = ts ∧ s.error? = none := by
  unfold whole
  cases s.error? <;> simp

theorem error?_eq_some_iff {s : TokenStream} {e : LexError} :
    s.error? = some e ↔ s.ending = .failure e := by
  unfold error?
  cases s.ending <;> simp

theorem exists_end_of_error? {s : TokenStream} (h : s.error? = none) :
    ∃ p, s.ending = .endOfText p := by
  unfold error? at h
  split at h
  · next p hp => exact ⟨p, hp⟩
  · cases h

/-- The last token before a place. -/
def lastBefore (s : TokenStream) (n : Nat) : Option Token := (s.listing.take n).getLast?

/-- The answer to a call at a place of the stream. -/
def answer (s : TokenStream) (n : Nat) : LexerCall → LexerAnswer
  | .advance => .token (s.element n)
  | .tokenize => .tokens (s.after n).whole
  | .current => .current (s.lastBefore n)
  | .currentKind => .kind ((s.lastBefore n).map Token.kind)

/-- The place that a call goes on to. All tokens are read up to what comes after them; that is one
more element, also where it was given before. -/
def placeAfter (s : TokenStream) (n : Nat) : LexerCall → Nat
  | .advance => n + 1
  | .tokenize => max n s.length + 1
  | .current | .currentKind => n

/-- The answers to calls that are made one after the other from a place on. -/
def answers (s : TokenStream) (n : Nat) : List LexerCall → List LexerAnswer
  | [] => []
  | c :: calls => s.answer n c :: s.answers (s.placeAfter n c) calls

/-! ### Places -/

@[simp] theorem after_zero (s : TokenStream) : s.after 0 = s := s.eq_ofTokens.symm

@[simp] theorem tail_after (s : TokenStream) (n : Nat) : (s.after n).tail = s.after (n + 1) := by
  simp [after]

theorem after_of_le {s : TokenStream} {n : Nat} (h : s.length ≤ n) :
    s.after n = ofTokens [] s.ending := by
  unfold after
  rw [List.drop_of_length_le (s.length_eq ▸ h)]

@[simp] theorem after_append (us : List Token) (s : TokenStream) :
    (us ++ s).after us.length = s := by
  induction us with
  | nil => exact s.after_zero
  | cons u us ih => exact ih

theorem length_listing (s : TokenStream) :
    s.listing.length = s.length + (ofTokens [] s.ending).listing.length := by
  have happend := congrArg (fun s => s.listing.length) (append_ended s.tokens s.ending)
  rw [← s.eq_ofTokens, listing_append, List.length_append] at happend
  rw [← happend, s.length_eq]

theorem length_listing_le (s : TokenStream) : s.listing.length ≤ s.length + 1 := by
  rw [length_listing, Nat.add_le_add_iff_left]
  cases s.ending with
  | endOfText p => exact Nat.le_refl 1
  | failure e => exact Nat.zero_le 1

/-- The tokens listed are those before a place and those from there on, except that the end of the
text is listed again. -/
theorem getLast?_listing_after (s : TokenStream) (n : Nat) :
    (s.after n).listing.getLast?.or (s.lastBefore n) = s.listing.getLast? := by
  obtain ⟨tokens, ending, _, rfl⟩ := s
  cases ending with
  | endOfText p =>
    change ((tokens.drop n ++ [Token.ofKind .endOfText p]).getLast?).or _ =
      (tokens ++ [Token.ofKind .endOfText p]).getLast?
    rw [List.getLast?_concat, List.getLast?_concat, Option.some_or]
  | failure e =>
    change (tokens.drop n).getLast?.or (tokens.take n).getLast? = tokens.getLast?
    rw [← List.getLast?_append, List.take_append_drop]

/-- A place of the listing holds the element there. -/
theorem element_eq_ok_of_listing {s : TokenStream} {n : Nat} {t : Token}
    (h : s.listing[n]? = some t) : s.element n = .ok t := by
  obtain ⟨rest, hs, hrest⟩ := exists_append_of_getElem? h
  have hlength : (s.listing.take n).length = n := by
    have hlt := (List.getElem?_eq_some_iff.mp h).1
    rw [List.length_take]
    omega
  have hafter := after_append (s.listing.take n) rest
  rw [hlength, ← hs] at hafter
  rw [element, hafter, hrest]

/-- The last token before the next place is the element at this one, if it is a token. -/
theorem lastBefore_succ (s : TokenStream) (n : Nat) :
    s.lastBefore (n + 1) =
      match s.element n with
      | .ok t => some t
      | .error _ => s.lastBefore n := by
  unfold lastBefore
  rcases Nat.lt_or_ge n s.listing.length with hlt | hge
  · have hat := List.getElem?_eq_getElem hlt
    rw [element_eq_ok_of_listing hat, List.take_add_one, hat, Option.toList_some,
      List.getLast?_concat]
  · have hall : s.listing.take n = s.listing := List.take_of_length_le hge
    have hall' : s.listing.take (n + 1) = s.listing :=
      List.take_of_length_le (Nat.le_succ_of_le hge)
    rw [hall, hall']
    obtain ⟨tokens, ending, _, rfl⟩ := s
    cases ending with
    | endOfText p =>
      have hle : tokens.length ≤ n := by
        change (tokens ++ [Token.ofKind .endOfText p]).length ≤ n at hge
        rw [List.length_append, List.length_singleton] at hge
        omega
      rw [element, after_of_le hle]
      exact List.getLast?_concat
    | failure e =>
      rw [element, after_of_le hge]
      rfl

end TokenStream

/-! ## One call -/

namespace Scanner

theorem symbolKind_ne_endOfText {c : Char} {following : Option Char} {k : TokenKind}
    (h : symbolKind c following = .ok k) : k ≠ .endOfText := by
  unfold symbolKind at h
  split at h <;> cases h <;> exact TokenKind.noConfusion

theorem kind_ofWord_ne (word : String) (p : Position) :
    (Token.ofWord word p).kind ≠ .endOfText := by
  unfold Token.ofWord
  split
  · next k hk =>
    have hmem : k ∈ TokenKind.keywords := List.mem_of_find?_eq_some hk
    rintro rfl
    exact absurd hmem (by decide)
  · exact TokenKind.noConfusion

/-- The end of the text begins with no character. -/
theorem kind_tokenFrom_ne {c : Char} {rest : CharStream} {p : Position} {t : Token} {s : Scanner}
    (h : tokenFrom c rest p = .ok (t, s)) : t.kind ≠ .endOfText := by
  unfold tokenFrom at h
  split at h
  · cases h
    exact kind_ofWord_ne _ p
  · split at h
    · cases h
      exact TokenKind.noConfusion
    · split at h
      · cases h
      · next k hk =>
        cases h
        exact symbolKind_ne_endOfText hk

theorem skipGap_nil (p : Position) : skipGap ⟨⟨[], []⟩, p⟩ = ⟨⟨[], []⟩, p⟩ := by
  have hskip := skipGap_endsGap endsGap_nil p
  exact hskip

/-- Once the end of the text is reached, it is reached again and again. -/
theorem next_of_next_end {s s' : Scanner} {t : Token} (h : s.next = .ok (t, s'))
    (ht : t.kind = .endOfText) : t = .ofKind .endOfText t.position ∧ s'.next = .ok (t, s') := by
  unfold next at h
  dsimp only at h
  split at h
  · next hend =>
    cases h
    refine ⟨rfl, ?_⟩
    have hnil := CharStream.next_eq_error_iff.mp hend
    generalize s.skipGap = s' at hnil ⊢
    obtain ⟨⟨back, unread⟩, p⟩ := s'
    obtain ⟨rfl, rfl⟩ := List.append_eq_nil_iff.mp hnil
    unfold next
    rw [skipGap_nil]
    rfl
  · exact absurd ht (kind_tokenFrom_ne h)

end Scanner

namespace TokenStream

open Scanner

/-- No token before the end of the text is one itself. -/
theorem kind_ne_of_mem_ofScanner {s : Scanner} {t : Token} (h : t ∈ (ofScanner s).tokens) :
    t.kind ≠ .endOfText := by
  induction s using ofScanner.induct with
  | case1 s e hnext =>
    rw [ofScanner_of_next_error hnext] at h
    cases h
  | case2 s u rest hnext hu =>
    rw [ofScanner_of_next_end hnext hu] at h
    cases h
  | case3 s u rest hnext hu _ ih =>
    rw [ofScanner_of_next_ok hnext hu, tokens_cons] at h
    rcases List.mem_cons.mp h with rfl | hmem
    · exact hu
    · exact ih hmem

end TokenStream

namespace Lexer

open TokenStream

theorem kind_ne_of_mem_unread {l : Lexer} {t : Token} (h : t ∈ l.unread.tokens) :
    t.kind ≠ .endOfText := by
  unfold unread at h
  split at h
  · exact kind_ne_of_mem_ofScanner h
  · cases h

/-- A lexer gives the first element of what is unread and goes on to the rest. Only a token becomes
the current one. -/
theorem advance_spec (l : Lexer) :
    l.advance.1 = l.unread.head ∧ l.advance.2.unread = l.unread.tail ∧
      l.advance.2.current? =
        match l.unread.head with
        | .ok t => some t
        | .error _ => l.current? := by
  obtain ⟨scanner, current?, failure?⟩ := l
  cases failure? with
  | some e => exact ⟨rfl, rfl, rfl⟩
  | none =>
    cases hnext : scanner.next with
    | error e =>
      have hunread : unread ⟨scanner, current?, none⟩ = ofTokens [] (.failure e) :=
        ofScanner_of_next_error hnext
      have hadvance : advance ⟨scanner, current?, none⟩ =
          (.error e, ⟨scanner, current?, some e⟩) := by
        simp only [advance, hnext]
      rw [hunread, hadvance]
      exact ⟨rfl, rfl, rfl⟩
    | ok r =>
      obtain ⟨t, rest⟩ := r
      have hadvance : advance ⟨scanner, current?, none⟩ = (.ok t, ⟨rest, some t, none⟩) := by
        simp only [advance, hnext]
      rw [hadvance]
      by_cases ht : t.kind = .endOfText
      · obtain ⟨hkind, hagain⟩ := Scanner.next_of_next_end hnext ht
        have hunread : unread ⟨scanner, current?, none⟩ =
            ofTokens [] (.endOfText t.position) := ofScanner_of_next_end hnext ht
        have hunread' : unread ⟨rest, some t, none⟩ = ofTokens [] (.endOfText t.position) :=
          ofScanner_of_next_end hagain ht
        have hhead : (ofTokens [] (.endOfText t.position)).head = .ok t :=
          congrArg Except.ok hkind.symm
        rw [hunread, hunread', hhead]
        exact ⟨rfl, rfl, rfl⟩
      · have hunread : unread ⟨scanner, current?, none⟩ = cons t (ofScanner rest) :=
          ofScanner_of_next_ok hnext ht
        rw [hunread, tail_cons]
        exact ⟨rfl, rfl, rfl⟩

/-! ### All tokens -/

theorem tokenize_of_error {l l' : Lexer} {e : LexError} (h : l.advance = (.error e, l')) :
    l.tokenize = (.error e, l') := by
  rw [tokenize]
  split
  · next he =>
    rw [h] at he
    cases he
    rfl
  · next hok =>
    rw [h] at hok
    cases hok

theorem tokenize_of_end {l l' : Lexer} {t : Token} (h : l.advance = (.ok t, l'))
    (ht : t.kind = .endOfText) : l.tokenize = (.ok [t], l') := by
  rw [tokenize]
  split
  · next he =>
    rw [h] at he
    cases he
  · next hok =>
    rw [h] at hok
    cases hok
    rw [dif_pos ht]

theorem tokenize_of_more {l l' : Lexer} {t : Token} (h : l.advance = (.ok t, l'))
    (ht : t.kind ≠ .endOfText) :
    l.tokenize = (l'.tokenize.1.map (t :: ·), l'.tokenize.2) := by
  rw [tokenize]
  split
  · next he =>
    rw [h] at he
    cases he
  · next hok =>
    rw [h] at hok
    cases hok
    rw [dif_neg ht]
    generalize l'.tokenize = r
    obtain ⟨_ | ts, l''⟩ := r <;> rfl

/-- All tokens are read at once as they are read one by one. -/
theorem tokenize_spec (l : Lexer) :
    l.tokenize.1 = l.unread.whole ∧ l.tokenize.2.unread = ofTokens [] l.unread.ending ∧
      l.tokenize.2.current? = l.unread.listing.getLast?.or l.current? := by
  generalize hts : l.unread.tokens = ts
  induction ts generalizing l with
  | nil =>
    obtain ⟨hresult, hunread, hcurrent⟩ := l.advance_spec
    have hended : l.unread = ofTokens [] l.unread.ending := by
      rw [← hts, ← eq_ofTokens]
    generalize hadvance : l.advance = r at hresult hunread hcurrent
    obtain ⟨result, l'⟩ := r
    generalize l.unread.ending = e at hended ⊢
    rw [hended] at hresult hunread hcurrent
    rw [hended]
    cases e with
    | failure x =>
      obtain rfl : result = .error x := hresult
      rw [tokenize_of_error hadvance]
      exact ⟨rfl, hunread, hcurrent⟩
    | endOfText p =>
      obtain rfl : result = .ok (.ofKind .endOfText p) := hresult
      rw [tokenize_of_end hadvance rfl]
      exact ⟨rfl, hunread, hcurrent⟩
  | cons t ts ih =>
    obtain ⟨hresult, hunread, hcurrent⟩ := l.advance_spec
    have hcons : l.unread = cons t (ofTokens ts l.unread.ending) := by
      rw [cons_ofTokens, ← hts, ← eq_ofTokens]
    have ht : t.kind ≠ .endOfText := kind_ne_of_mem_unread (l := l) (by rw [hts]; simp)
    generalize hadvance : l.advance = r at hresult hunread hcurrent
    obtain ⟨result, l'⟩ := r
    generalize l.unread.ending = e at hcons ⊢
    rw [hcons] at hresult hunread hcurrent
    rw [hcons]
    obtain rfl : result = .ok t := hresult
    rw [tail_cons] at hunread
    obtain ⟨hall, hrest, hlast⟩ := ih l' (by rw [hunread]; rfl)
    rw [hunread] at hall hrest hlast
    rw [tokenize_of_more hadvance ht, listing_cons, hall, hrest, hlast, hcurrent]
    refine ⟨?_, rfl, ?_⟩
    · unfold whole
      rw [error?_cons, listing_cons]
      cases (ofTokens ts e).error? <;> rfl
    · rw [List.getLast?_cons]
      cases (ofTokens ts e).listing.getLast? <;> rfl

end Lexer

/-! ## Any calls -/

namespace Lexer

open TokenStream

/-- The lexer stands at a place of the stream: it has given all elements before it, and gives the
others next. -/
structure At (l : Lexer) (s : TokenStream) (n : Nat) : Prop where
  unread : l.unread = s.after n
  current : l.current? = s.lastBefore n

variable {l : Lexer} {s : TokenStream} {n : Nat}

/-- What is asked of a lexer is answered by its place, and it goes on to the next place. -/
theorem At.call (h : l.At s n) (c : LexerCall) :
    (l.call c).1 = s.answer n c ∧ (l.call c).2.At s (s.placeAfter n c) := by
  obtain ⟨hunread, hcurrent⟩ := h
  cases c with
  | current => exact ⟨congrArg LexerAnswer.current hcurrent, hunread, hcurrent⟩
  | currentKind =>
    have hkind : l.currentKind? = (s.lastBefore n).map Token.kind :=
      congrArg (Option.map Token.kind) hcurrent
    exact ⟨congrArg LexerAnswer.kind hkind, hunread, hcurrent⟩
  | advance =>
    obtain ⟨hresult, hnext, hlast⟩ := l.advance_spec
    rw [hunread] at hresult hnext hlast
    refine ⟨congrArg LexerAnswer.token hresult, ?_, ?_⟩
    · exact hnext.trans (s.tail_after n)
    · rw [hcurrent] at hlast
      exact hlast.trans (s.lastBefore_succ n).symm
  | tokenize =>
    obtain ⟨hresult, hnext, hlast⟩ := l.tokenize_spec
    rw [hunread] at hresult hnext hlast
    have hle : s.length ≤ max n s.length + 1 := by omega
    refine ⟨congrArg LexerAnswer.tokens hresult, ?_, ?_⟩
    · exact hnext.trans (after_of_le hle).symm
    · have hall : s.listing.take (max n s.length + 1) = s.listing :=
        List.take_of_length_le (Nat.le_trans s.length_listing_le (by omega))
      rw [hcurrent, getLast?_listing_after] at hlast
      exact hlast.trans (congrArg List.getLast? hall).symm

theorem At.answers (h : l.At s n) (calls : List LexerCall) :
    l.answers calls = s.answers n calls := by
  induction calls generalizing l n with
  | nil => rfl
  | cons c calls ih =>
    obtain ⟨hanswer, hnext⟩ := h.call c
    rw [Lexer.answers, TokenStream.answers, hanswer, ih hnext]

/-- Each element that is read is one place. -/
theorem At.advances (h : l.At s n) (m : Nat) :
    (l.afterCalls (List.replicate m .advance)).At s (n + m) := by
  induction m generalizing l n with
  | zero => exact h
  | succ m ih =>
    have hnext := ih (h.call .advance).2
    rwa [placeAfter, Nat.add_right_comm] at hnext

/-- A new lexer stands at the beginning of what it is to read. -/
theorem at_ofSource (source : CharStream) :
    (ofSource source).At (ofScanner ⟨source, .start⟩) 0 := by
  constructor
  · exact (after_zero _).symm
  · rfl

/-! ### Errors -/

/-- After a call that fails, a lexer has nothing more to give than its error. -/
theorem unread_of_failed_call {c : LexerCall} {e : LexError}
    (h : (l.call c).1.error? = some e) : (l.call c).2.unread = ofTokens [] (.failure e) := by
  cases c with
  | current | currentKind => cases h
  | advance =>
    obtain ⟨hresult, hnext, -⟩ := l.advance_spec
    have hhead : l.unread.head = .error e := by
      rw [← hresult]
      exact LexerAnswer.error?_token_iff.mp h
    rw [eq_failure_of_head hhead] at hnext
    exact hnext
  | tokenize =>
    obtain ⟨hresult, hnext, -⟩ := l.tokenize_spec
    have hwhole : l.unread.whole = .error e := by
      rw [← hresult]
      exact LexerAnswer.error?_tokens_iff.mp h
    rw [error?_eq_some_iff.mp (whole_eq_error_iff.mp hwhole)] at hnext
    exact hnext

/-- With nothing but an error to give, a lexer gives it to every call that reads, and keeps its
current token. -/
theorem call_of_unread_failure {e : LexError} (h : l.unread = ofTokens [] (.failure e))
    (c : LexerCall) :
    (l.call c).2.unread = ofTokens [] (.failure e) ∧ (l.call c).2.current? = l.current? ∧
      (c.reads = true → (l.call c).1.error? = some e) := by
  cases c with
  | current | currentKind => exact ⟨h, rfl, nofun⟩
  | advance =>
    obtain ⟨hresult, hnext, hcurrent⟩ := l.advance_spec
    rw [h] at hresult hnext hcurrent
    exact ⟨hnext, hcurrent, fun _ => LexerAnswer.error?_token_iff.mpr hresult⟩
  | tokenize =>
    obtain ⟨hresult, hnext, hcurrent⟩ := l.tokenize_spec
    rw [h] at hresult hnext hcurrent
    exact ⟨hnext, hcurrent, fun _ => LexerAnswer.error?_tokens_iff.mpr hresult⟩

theorem afterCalls_of_unread_failure {e : LexError} (h : l.unread = ofTokens [] (.failure e))
    (calls : List LexerCall) :
    (l.afterCalls calls).unread = ofTokens [] (.failure e) ∧
      (l.afterCalls calls).current? = l.current? := by
  induction calls generalizing l with
  | nil => exact ⟨h, rfl⟩
  | cons c calls ih =>
    obtain ⟨hnext, hcurrent, -⟩ := call_of_unread_failure h c
    obtain ⟨hrest, hlast⟩ := ih hnext
    exact ⟨hrest, hlast.trans hcurrent⟩

end Lexer

/-! ## The stream of a text -/

open TokenStream

/-- The elements are the tokens of the text, and from there on its lexical error for ever, or for
ever the end of the text that is the last token. -/
structure IsStream (source : String) (element : Nat → Except LexError Token) : Prop where
  token : ∀ n t, (collectTokens source).1[n]? = some t → element n = .ok t
  failed : ∀ e, (collectTokens source).2 = some e →
    ∀ n, (collectTokens source).1.length ≤ n → element n = .error e
  ended : (collectTokens source).2 = none →
    ∃ t : Token, t.kind = .endOfText ∧ (collectTokens source).1.getLast? = some t ∧
      ∀ n, (collectTokens source).1.length ≤ n → element n = .ok t

/-- The elements after all that is listed. -/
theorem element_of_listing_le {s : TokenStream} {n : Nat} (h : s.listing.length ≤ n) :
    s.element n = (ofTokens [] s.ending).head := by
  rw [length_listing] at h
  rw [element, after_of_le (Nat.le_of_add_right_le h)]

theorem isStream_element (source : String) :
    IsStream source (TokenStream.ofString source).element := by
  refine ⟨fun n t => element_eq_ok_of_listing, ?_, ?_⟩
  · intro e he n hn
    have hending := error?_eq_some_iff.mp he
    rw [element_of_listing_le hn, hending]
    rfl
  · intro hnone
    obtain ⟨p, hp⟩ := exists_end_of_error? hnone
    refine ⟨.ofKind .endOfText p, rfl, ?_, ?_⟩
    · have hlisting : (collectTokens source).1 =
          (TokenStream.ofString source).tokens ++ [.ofKind .endOfText p] := by
        change (TokenStream.ofString source).listing = _
        unfold listing
        rw [hp]
      rw [hlisting, List.getLast?_concat]
    · intro n hn
      rw [element_of_listing_le hn, hp]
      rfl

/-- The lexer of a text is a cursor into the stream of its tokens. -/
structure IsCursor (source : String) : Prop where
  stream : IsStream source (TokenStream.ofString source).element
  /-- Calls in any order are answered by the place in the stream. -/
  answers : ∀ calls, (Lexer.ofString source).answers calls =
    (TokenStream.ofString source).answers 0 calls
  /-- After the first error every call that reads fails with it, and the current token stays. -/
  failed : ∀ (before later : List LexerCall) (c : LexerCall) (l : Lexer) (e : LexError),
    l = (((Lexer.ofString source).afterCalls before).call c).2 →
    (((Lexer.ofString source).afterCalls before).call c).1.error? = some e →
    (l.afterCalls later).current? = l.current? ∧
      ∀ c', c'.reads = true → ((l.afterCalls later).call c').1.error? = some e
  /-- A new lexer reads the whole text if there is no error in it. -/
  whole : ∀ ts, (Lexer.ofString source).tokenize.1 = .ok ts ↔ collectTokens source = (ts, none)
  wholeFailed : ∀ e, (Lexer.ofString source).tokenize.1 = .error e ↔
    (collectTokens source).2 = some e

/-- Whatever is asked of a lexer in whatever order, it answers as a cursor into one stream. -/
theorem lexer_isCursor (source : String) : IsCursor source := by
  have hunread : (Lexer.ofString source).unread = TokenStream.ofString source := rfl
  obtain ⟨hwhole, -⟩ := (Lexer.ofString source).tokenize_spec
  rw [hunread] at hwhole
  constructor
  · exact isStream_element source
  · exact (Lexer.at_ofSource (.ofString source)).answers
  · rintro before later c l e rfl h
    have hspent := Lexer.unread_of_failed_call h
    obtain ⟨hlater, hcurrent⟩ := Lexer.afterCalls_of_unread_failure hspent later
    refine ⟨hcurrent, fun c' => ?_⟩
    exact (Lexer.call_of_unread_failure hlater c').2.2
  · intro ts
    rw [hwhole, whole_eq_ok_iff, Prod.ext_iff]
    rfl
  · intro e
    rw [hwhole, whole_eq_error_iff]
    rfl

end WhileLang
