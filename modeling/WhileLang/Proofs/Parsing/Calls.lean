import WhileLang.Proofs.Lexing.Cursor
import WhileLang.Proofs.Parsing.FirstError
import WhileLang.Proofs.Parsing.Trailing

/-!
# Calling a parser again

A parser can be called again, also after it has failed. Each call stands at a token of the text and
gives what a new parser gives there, so nothing of the calls before it matters but their number of
tokens (`place_parserAfter`).

A call that fails leaves the token at which it failed. If that token begins no program, there is no
way on: all later calls fail at it alike. Nor is there one at the token before a lexical error,
whether it begins a program or not (`calls_keepPlace`).
-/

namespace WhileLang

open Grammar WhileLang.Parser TokenStream

/-! ## Calls -/

namespace Grammar

/-- The stream that a number of calls leave. -/
def leftAfter (tracing : Tracing) : Nat → TokenStream → TokenStream
  | 0, s => s
  | n + 1, s => leftAfter tracing n (program tracing s).rest

variable {tracing : Tracing}

theorem leftAfter_add (m n : Nat) (s : TokenStream) :
    leftAfter tracing (m + n) s = leftAfter tracing n (leftAfter tracing m s) := by
  induction m generalizing s with
  | zero => rw [Nat.zero_add, leftAfter]
  | succ m ih => rw [Nat.add_right_comm, leftAfter, leftAfter, ih]

theorem leftAfter_succ (n : Nat) (s : TokenStream) :
    leftAfter tracing (n + 1) s = (run program (leftAfter tracing n s)).2 :=
  (leftAfter_add n 1 s).trans (inert_program.rest_eq tracing _)

/-- The results of calls are those of the rule for programs at the streams that the calls before
leave. -/
theorem programs_eq_map (n : Nat) (s : TokenStream) :
    programs n s tracing =
      (List.range n).map fun i => (program tracing (leftAfter tracing i s)).result := by
  induction n generalizing s with
  | zero => rfl
  | succ n ih =>
    rw [programs, ih, List.range_succ_eq_map, List.map_cons, List.map_map]
    rfl

theorem programs_of_run {s rest : TokenStream} {result : Except ParseError TreeBuilder}
    (h : run program s = (result, rest)) (n : Nat) :
    programs (n + 1) s tracing = result :: programs n rest tracing := by
  rw [programs_succ, h]

/-- Where one call leaves its stream as it is, all later ones do. -/
theorem leftAfter_of_fixed {s : TokenStream} (h : (run program s).2 = s) (n : Nat) :
    leftAfter tracing n s = s := by
  induction n with
  | zero => rfl
  | succ n ih => rw [leftAfter_succ, ih, h]

/-- A call consumes tokens from the front, and leaves one that can be read. -/
theorem exists_append_run_program {s : TokenStream} (h : s.Readable) :
    ∃ us : List Token, s = us ++ (run program s).2 ∧ (run program s).2.Readable := by
  have hran := reads_program.ran s h
  generalize run program s = o at hran
  cases hran with
  | success hs hrest => exact ⟨_, hs, hrest⟩
  | mismatch hs hrest => exact ⟨_, hs, _, hrest⟩
  | unreadable hs => exact ⟨_, hs, readable_cons _ _⟩

theorem exists_append_leftAfter {s : TokenStream} (h : s.Readable) (n : Nat) :
    ∃ us : List Token, s = us ++ leftAfter tracing n s ∧ (leftAfter tracing n s).Readable := by
  induction n with
  | zero => exact ⟨[], rfl, h⟩
  | succ n ih =>
    obtain ⟨us, hus, hreadable⟩ := ih
    obtain ⟨vs, hvs, hnext⟩ := exists_append_run_program hreadable
    rw [leftAfter_succ]
    refine ⟨us ++ vs, ?_, hnext⟩
    rw [append_append, ← hvs]
    exact hus

end Grammar

/-! ## New parsers -/

/-- What a new parser gives on a lexer: it takes its first token from it, then parses a program. -/
def Lexer.parse (l : Lexer) (tracing : Tracing) : Except ParseError TreeBuilder :=
  match l.advance.1 with
  | .error e => .error (.lexical e)
  | .ok _ => (program tracing l.unread).result

/-- A new parser depends only on what is unread. -/
theorem Lexer.parse_eq (l : Lexer) (tracing : Tracing) :
    l.parse tracing = (program tracing l.unread).result := by
  unfold Lexer.parse
  rw [l.advance_spec.1]
  cases hhead : l.unread.head with
  | ok t => rfl
  | error e =>
    rw [inert_program.result_eq, eq_failure_of_head hhead]
    rfl

/-! ## After a failure -/

/-- The failure at a token that begins no program. -/
def ParseError.noProgram (found : TokenKind) (p : Position) : ParseError :=
  .unexpected (.oneOf [.programWord]) found p

theorem ParseError.message_noProgram (found : TokenKind) (p : Position) :
    (noProgram found p).message =
      "at " ++ p.text ++ ", Expected \x7b program \x7d, but found '" ++ found.text ++ "'" := by
  have hexpected : (Expected.oneOf [.programWord]).text = "\x7b program \x7d" := by decide +kernel
  change "at " ++ p.text ++ ", Expected " ++ (Expected.oneOf [.programWord]).text ++
    ", but found '" ++ found.text ++ "'" = _
  rw [hexpected]
  simp only [String.append_assoc]
  rfl

namespace Grammar

/-- A token that begins no program is not consumed. -/
theorem run_program_of_head_ne {s : TokenStream} {t : Token} (hs : s.head = .ok t)
    (ht : t.kind ≠ .programWord) :
    run program s = (.error (.noProgram t.kind t.position), s) := by
  have hnone : run (take? fun k => if k ∈ [TokenKind.programWord] then some () else none) s =
      (.ok none, s) := run_take?_skip (ahead?_of_head hs) (by simp [ht])
  unfold program
  rw [run_inRule, run_bind]
  unfold expect
  rw [run_bind_ok hnone, run_unexpected hs]
  rfl

/-- Before a lexical error no program is found, and nothing is consumed. -/
theorem run_program_before_failure (t : Token) (e : LexError) :
    run program (cons t (ofTokens [] (.failure e))) =
      (.error (if t.kind = .programWord then .lexical e else .noProgram t.kind t.position),
        cons t (ofTokens [] (.failure e))) := by
  by_cases ht : t.kind = .programWord
  · unfold program
    rw [if_pos ht, run_inRule, run_bind, run_expect_failure (by simp [ht]) rfl]
  · rw [if_neg ht]
    exact run_program_of_head_ne rfl ht

end Grammar

/-! ## The parser of a text -/

/-- What the parser of a text still has before it after a number of calls. -/
def parserAfter (tracing : Tracing) (source : String) (i : Nat) : TokenStream :=
  leftAfter tracing i (.ofString source)

/-- What the call after these gives. -/
def callResult (tracing : Tracing) (source : String) (i : Nat) : Except ParseError TreeBuilder :=
  (program tracing (parserAfter tracing source i)).result

/-- The current token is the first one that no program can have after the tokens consumed. -/
def StopsAt (s rest : TokenStream) (t : Token) : Prop :=
  rest.head = .ok t ∧ ∃ us : List Token, s = us ++ rest ∧ Viable (us.map Token.kind) ∧
    ¬Viable ((us ++ [t]).map Token.kind)

/-- From this call on, all calls fail alike and leave the parser as it is. -/
def FailsFrom (tracing : Tracing) (source : String) (i : Nat) (e : ParseError) : Prop :=
  ∀ j, i ≤ j → parserAfter tracing source j = parserAfter tracing source i ∧
    callResult tracing source j = .error e

/-- The calls of one parser of a text: what each gives, and where it leaves the parser. -/
structure KeepsPlace (tracing : Tracing) (source : String) : Prop where
  results : ∀ n, programs n (.ofString source) tracing =
    (List.range n).map (callResult tracing source)
  /-- Every call stands at a token of the text, where a lexer can come as well. -/
  place : ∀ i, ∃ m, m < (collectTokens source).1.length ∧
    parserAfter tracing source i = (TokenStream.ofString source).after m ∧
    ((Lexer.ofString source).afterCalls (List.replicate m .advance)).unread =
      parserAfter tracing source i
  /-- A new parser with the same tokens before it gives the same. -/
  fresh : ∀ i (l : Lexer), l.unread = parserAfter tracing source i →
    l.parse tracing = callResult tracing source i
  /-- A syntax error leaves the token that it reports. -/
  offending : ∀ i expected found p,
    callResult tracing source i = .error (.unexpected expected found p) →
    ∃ t : Token, t.kind = found ∧ t.position = p ∧
      StopsAt (parserAfter tracing source i) (parserAfter tracing source (i + 1)) t
  /-- A token that begins no program is the end of all calls. -/
  syntactic : ∀ i expected found p,
    callResult tracing source i = .error (.unexpected expected found p) → found ≠ .programWord →
    FailsFrom tracing source (i + 1) (.noProgram found p)
  wording : ∀ found p, (ParseError.noProgram found p).message =
    "at " ++ p.text ++ ", Expected \x7b program \x7d, but found '" ++ found.text ++ "'"
  /-- A lexical error leaves the last token before it, which is never consumed. -/
  lexical : ∀ i e, callResult tracing source i = .error (.lexical e) →
    (collectTokens source).2 = some e ∧ ∃ t, (collectTokens source).1.getLast? = some t ∧
      (parserAfter tracing source (i + 1)).head = .ok t ∧
      FailsFrom tracing source (i + 1)
        (if t.kind = .programWord then .lexical e else .noProgram t.kind t.position)

theorem run_parserAfter (tracing : Tracing) (source : String) (i : Nat) :
    run program (parserAfter tracing source i) =
      (callResult tracing source i, parserAfter tracing source (i + 1)) := by
  unfold callResult parserAfter
  rw [leftAfter_succ, inert_program.result_eq]

theorem exists_append_parserAfter (tracing : Tracing) {source : String}
    (h : (collectTokens source).1 ≠ []) (i : Nat) :
    ∃ us : List Token, TokenStream.ofString source = us ++ parserAfter tracing source i ∧
      (parserAfter tracing source i).Readable :=
  exists_append_leftAfter (readable_iff_listing.mpr h) i

/-- Where a call cannot go on, it is repeated for ever. -/
theorem failsFrom_of_run {tracing : Tracing} {source : String} {i : Nat} {e : ParseError}
    (h : run program (parserAfter tracing source i) = (.error e, parserAfter tracing source i)) :
    FailsFrom tracing source i e := by
  intro j hj
  obtain ⟨n, rfl⟩ := Nat.exists_eq_add_of_le hj
  have hfixed : parserAfter tracing source (i + n) = parserAfter tracing source i := by
    unfold parserAfter
    rw [leftAfter_add]
    apply leftAfter_of_fixed
    exact congrArg Prod.snd h
  refine ⟨hfixed, ?_⟩
  rw [callResult, hfixed, inert_program.result_eq, h]

/-- Every call stands at a token of the text, where a lexer can come as well. -/
theorem place_parserAfter (tracing : Tracing) {source : String}
    (h : (collectTokens source).1 ≠ []) (i : Nat) :
    ∃ m, m < (collectTokens source).1.length ∧
      parserAfter tracing source i = (TokenStream.ofString source).after m ∧
      ((Lexer.ofString source).afterCalls (List.replicate m .advance)).unread =
        parserAfter tracing source i := by
  obtain ⟨us, hus, hreadable⟩ := exists_append_parserAfter tracing h i
  have hafter : parserAfter tracing source i = (TokenStream.ofString source).after us.length := by
    have happend := after_append us (parserAfter tracing source i)
    rw [← hus] at happend
    exact happend.symm
  refine ⟨us.length, ?_, hafter, ?_⟩
  · have hlisting : (collectTokens source).1 = us ++ (parserAfter tracing source i).listing := by
      rw [← listing_append, ← hus]
      rfl
    have hpos := List.length_pos_iff.mpr (readable_iff_listing.mp hreadable)
    rw [hlisting, List.length_append]
    omega
  · have hplace := (Lexer.at_ofSource (.ofString source)).advances us.length
    rw [Nat.zero_add] at hplace
    exact hplace.unread.trans hafter.symm

section

variable {tracing : Tracing} {source : String} (h : (collectTokens source).1 ≠ []) {i : Nat}

include h

theorem ran_parserAfter (tracing : Tracing) (i : Nat) :
    Ran (Built .program) (parserAfter tracing source i)
      (callResult tracing source i, parserAfter tracing source (i + 1)) := by
  obtain ⟨-, -, hreadable⟩ := exists_append_parserAfter tracing h i
  have hran := reads_program.ran _ hreadable
  rwa [run_parserAfter] at hran

/-- A syntax error is reported at the first token that cannot follow the others. -/
theorem exists_stopsAt {expected : Expected} {found : TokenKind} {p : Position}
    (hcall : callResult tracing source i = .error (.unexpected expected found p)) :
    ∃ t : Token, t.kind = found ∧ t.position = p ∧
      StopsAt (parserAfter tracing source i) (parserAfter tracing source (i + 1)) t := by
  have hran := ran_parserAfter h tracing i
  have hrun := run_parserAfter tracing source i
  rw [hcall] at hran hrun
  cases hran with
  | @mismatch us t _ _ hs ht hbegins =>
    rw [hs] at hrun
    exact ⟨t, rfl, rfl, ht, us, hs, viable_of_begins hbegins, not_viable_of_run ht hrun⟩

/-- A lexical error leaves nothing but the current token. -/
theorem exists_before_failure {e : LexError}
    (hcall : callResult tracing source i = .error (.lexical e)) :
    ∃ (us : List Token) (t : Token),
      TokenStream.ofString source = us ++ cons t (ofTokens [] (.failure e)) ∧
      parserAfter tracing source (i + 1) = cons t (ofTokens [] (.failure e)) := by
  obtain ⟨us, hus, -⟩ := exists_append_parserAfter tracing h i
  have hran := ran_parserAfter h tracing i
  rw [hcall] at hran
  generalize parserAfter tracing source (i + 1) = rest at hran
  cases hran with
  | @unreadable vs t _ hs _ =>
    refine ⟨us ++ vs, t, ?_, rfl⟩
    rw [append_append, ← hs]
    exact hus

end

/-- However often the parser of a text is called, it keeps its place. -/
theorem calls_keepPlace (tracing : Tracing) (source : String) (h : (collectTokens source).1 ≠ []) :
    KeepsPlace tracing source := by
  constructor
  · intro n
    exact programs_eq_map n _
  · exact place_parserAfter tracing h
  · intro i l hl
    rw [l.parse_eq, hl, callResult]
  · intro i expected found p hcall
    exact exists_stopsAt h hcall
  · intro i expected found p hcall hfound
    obtain ⟨t, rfl, rfl, hhead, -⟩ := exists_stopsAt h hcall
    exact failsFrom_of_run (run_program_of_head_ne hhead hfound)
  · exact ParseError.message_noProgram
  · intro i e hcall
    obtain ⟨us, t, hs, hleft⟩ := exists_before_failure h hcall
    have hlisting : (collectTokens source).1 = us ++ [t] := by
      have happend := congrArg TokenStream.listing hs
      rwa [listing_append, listing_cons] at happend
    have herror : (collectTokens source).2 = some e := by
      have happend := congrArg TokenStream.error? hs
      rwa [error?_append, error?_cons] at happend
    refine ⟨herror, t, ?_, ?_, ?_⟩
    · rw [hlisting, List.getLast?_concat]
    · rw [hleft]
      rfl
    · apply failsFrom_of_run
      rw [hleft]
      exact run_program_before_failure t e

theorem calls_keepPlace_symbol :
    (collectTokens "program p : print 1 end program ?").1 ≠ [] ∧
      callResult .off "program p : print 1 end program ?" 1 =
        .error (.lexical ⟨.illegalSymbol '?', ⟨1, 33⟩⟩) ∧
      KeepsPlace .off "program p : print 1 end program ?" := by
  have hsome : (collectTokens "program p : print 1 end program ?").1 ≠ [] := by decide +kernel
  exact ⟨hsome, by decide +kernel, calls_keepPlace .off _ hsome⟩

end WhileLang
