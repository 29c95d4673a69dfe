import WhileLang.Proofs.Lexing.Pushback

/-!
# Streams as lists of characters

A stream keeps the characters to come in two places: those that were pushed back, and the text that
is unread. Nobody who uses a stream can tell. It answers all calls as one list of characters does,
which calls shorten and lengthen at its head (`transcript_ofString`).

The rest of a line is the exception: it is dropped from the unread text, and what was pushed back is
forgotten without a look at it. A list would end the line at a line feed that was pushed back. So
the invariant that carries the calls is that there is none (`CharStream.StandsFor`).
-/

namespace WhileLang

/-! ## Calls -/

/-- What can be asked of a stream of characters. -/
inductive StreamCall where
  | hasNext | peek | next
  | putBack (c : Char)
  | skipLine
deriving DecidableEq, Repr

inductive StreamAnswer where
  | hasNext (b : Bool)
  | peeked (c? : Option Char)
  | read (c : Char)
  | failed (error : ReadError)
  /-- The call changes what is to come and tells nothing. -/
  | done
deriving DecidableEq, Repr

/-- The answers to calls that are made one after the other, each on what the one before leaves. -/
def transcript {α : Type} (answer : α → StreamCall → StreamAnswer × α) (a : α) :
    List StreamCall → List StreamAnswer
  | [] => []
  | c :: calls => (answer a c).1 :: transcript answer (answer a c).2 calls

namespace CharStream

def call (s : CharStream) : StreamCall → StreamAnswer × CharStream
  | .hasNext => (.hasNext s.hasNext, s)
  | .peek => (.peeked s.peek?, s)
  | .next =>
    match s.next with
    | .ok (c, rest) => (.read c, rest)
    | .error e => (.failed e, s)
  | .putBack c => (.done, s.putBack c)
  | .skipLine => (.done, s.skipLine)

end CharStream

/-- The same calls on a list. Reading takes its head, pushing back puts a character there, and the
rest of a line ends with the first line feed. -/
def callList (cs : List Char) : StreamCall → StreamAnswer × List Char
  | .hasNext => (.hasNext !cs.isEmpty, cs)
  | .peek => (.peeked cs.head?, cs)
  | .next =>
    match cs with
    | [] => (.failed .pastEnd, [])
    | c :: rest => (.read c, rest)
  | .putBack c => (.done, c :: cs)
  | .skipLine => (.done, (cs.dropWhile (· ≠ '\n')).tail)

/-! ## The invariant -/

namespace CharStream

theorem afterLine_eq (cs : List Char) : afterLine cs = (cs.dropWhile (· ≠ '\n')).tail := by
  induction cs with
  | nil => rfl
  | cons c cs ih =>
    by_cases hc : c = '\n'
    · rw [afterLine, if_pos hc, List.dropWhile_cons_of_neg (by simpa using hc), List.tail_cons]
    · rw [afterLine, if_neg hc, ih, List.dropWhile_cons_of_pos (by simpa using hc)]

/-- The list is what is to come, and no line feed is among what was pushed back. -/
structure StandsFor (s : CharStream) (cs : List Char) : Prop where
  remaining_eq : s.remaining = cs
  notMem : '\n' ∉ s.pushedBack

theorem standsFor_ofString (text : String) : (ofString text).StandsFor text.toList :=
  ⟨rfl, List.not_mem_nil⟩

namespace StandsFor

variable {s : CharStream} {cs : List Char}

theorem peek?_eq (h : s.StandsFor cs) : s.peek? = cs.head? := by
  rw [s.peek?_eq, h.remaining_eq]

theorem hasNext_eq (h : s.StandsFor cs) : s.hasNext = !cs.isEmpty := by
  rw [s.hasNext_eq, h.remaining_eq]

theorem next (h : s.StandsFor cs) :
    (s.call .next).1 = (callList cs .next).1 ∧
      (s.call .next).2.StandsFor (callList cs .next).2 := by
  cases cs with
  | nil =>
    have hnext : s.next = .error .pastEnd := next_eq_error_iff.mpr h.remaining_eq
    simp only [call, hnext]
    exact ⟨rfl, h⟩
  | cons c cs =>
    obtain ⟨rest, hnext, hrest, hback⟩ := exists_next h.remaining_eq
    simp only [call, hnext]
    refine ⟨rfl, hrest, fun hmem => h.notMem ?_⟩
    rw [hback] at hmem
    exact List.mem_of_mem_tail hmem

theorem putBack (h : s.StandsFor cs) {c : Char} (hc : c ≠ '\n') :
    (s.putBack c).StandsFor (c :: cs) := by
  refine ⟨congrArg (List.cons c) h.remaining_eq, ?_⟩
  exact fun hmem => (List.mem_cons.mp hmem).elim (fun heq => hc heq.symm) h.notMem

theorem skipLine (h : s.StandsFor cs) :
    s.skipLine.StandsFor (cs.dropWhile (· ≠ '\n')).tail := by
  refine ⟨?_, List.not_mem_nil⟩
  rw [← afterLine_eq, ← h.remaining_eq, afterLine_remaining h.notMem]

/-- Every call that pushes back no line feed is answered as by the list, and leaves a stream for the
list that it leaves. -/
theorem call (h : s.StandsFor cs) {c : StreamCall} (hc : c ≠ .putBack '\n') :
    (s.call c).1 = (callList cs c).1 ∧ (s.call c).2.StandsFor (callList cs c).2 := by
  cases c with
  | hasNext => exact ⟨congrArg StreamAnswer.hasNext h.hasNext_eq, h⟩
  | peek => exact ⟨congrArg StreamAnswer.peeked h.peek?_eq, h⟩
  | next => exact h.next
  | putBack c => exact ⟨rfl, h.putBack fun heq => hc (congrArg StreamCall.putBack heq)⟩
  | skipLine => exact ⟨rfl, h.skipLine⟩

theorem transcript_eq (h : s.StandsFor cs) {calls : List StreamCall}
    (hcalls : .putBack '\n' ∉ calls) :
    transcript CharStream.call s calls = transcript callList cs calls := by
  induction calls generalizing s cs with
  | nil => rfl
  | cons c calls ih =>
    obtain ⟨hc, hlater⟩ := not_or.mp (mt List.mem_cons.mpr hcalls)
    obtain ⟨hanswer, hleft⟩ := h.call (Ne.symm hc)
    rw [transcript, transcript, hanswer, ih hleft hlater]

end StandsFor

end CharStream

/-! ## Streams of a text -/

/-- **A stream is a list of characters.** Whatever is asked of the stream of a text, and in whatever
order, it answers as the list of its characters does, if no line feed is ever pushed back. -/
theorem transcript_ofString (text : String) (calls : List StreamCall)
    (h : .putBack '\n' ∉ calls) :
    transcript CharStream.call (.ofString text) calls = transcript callList text.toList calls :=
  (CharStream.standsFor_ofString text).transcript_eq h

/-- Characters are pushed back onto a line whose rest is then skipped, and onto a text that was read
to its end. -/
theorem transcript_ofString_two_lines :
    let calls : List StreamCall := [.next, .putBack 'a', .putBack 'b', .peek, .skipLine, .next,
      .next, .skipLine, .hasNext, .putBack 'c', .hasNext, .next, .peek]
    .putBack '\n' ∉ calls ∧
      transcript CharStream.call (.ofString "xy\nz") calls =
        transcript callList "xy\nz".toList calls ∧
      transcript callList "xy\nz".toList calls =
        [.read 'x', .done, .done, .peeked (some 'b'), .done, .read 'z', .failed .pastEnd, .done,
          .hasNext false, .done, .hasNext true, .read 'c', .peeked none] :=
  ⟨by decide, transcript_ofString _ _ (by decide), by decide⟩

-- A line feed that was pushed back ends the line for the list, and is forgotten by the stream.
example :
    transcript CharStream.call (.ofString "x") [.putBack '\n', .skipLine, .hasNext] ≠
      transcript callList "x".toList [.putBack '\n', .skipLine, .hasNext] := by
  decide

end WhileLang
