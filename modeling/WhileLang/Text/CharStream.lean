/-!
# Character streams with pushback

A stream gives its characters one at a time. Characters may be pushed back; they come out
again before the rest of the text, the last one pushed first.

* `CharStream.remaining` is the list of characters still to come. The operations look at the two
  parts of a stream; they are the head and tail of this list (`peek?_eq`, `remaining_of_next`,
  `remaining_takeWhile`).
* `CharStream.skipLine` drops what was pushed back and the rest of the current line of the
  text.
-/

namespace WhileLang

/-- A text being read, with the characters pushed back onto it, the next one first. -/
structure CharStream where
  pushedBack : List Char
  unread : List Char
deriving DecidableEq, Repr

inductive ReadError where
  | pastEnd
deriving DecidableEq, Repr

def ReadError.message : ReadError → String
  | .pastEnd => "read past the end of input"

namespace CharStream

def ofString (text : String) : CharStream := ⟨[], text.toList⟩

/-- The characters still to come, in order. -/
def remaining (s : CharStream) : List Char := s.pushedBack ++ s.unread

/-- The next character, which stays in the stream. -/
def peek? (s : CharStream) : Option Char := s.pushedBack.head?.or s.unread.head?

def hasNext (s : CharStream) : Bool := !s.pushedBack.isEmpty || !s.unread.isEmpty

def next : CharStream → Except ReadError (Char × CharStream)
  | ⟨c :: back, unread⟩ => .ok (c, ⟨back, unread⟩)
  | ⟨[], c :: unread⟩ => .ok (c, ⟨[], unread⟩)
  | ⟨[], []⟩ => .error .pastEnd

def putBack (s : CharStream) (c : Char) : CharStream := ⟨c :: s.pushedBack, s.unread⟩

/-- What follows the first line feed of a text; nothing if it has none. -/
def afterLine : List Char → List Char
  | [] => []
  | c :: cs => if c = '\n' then cs else afterLine cs

/-- Forgets all that was pushed back and drops the rest of the text's current line, its line
feed included. -/
def skipLine (s : CharStream) : CharStream := ⟨[], afterLine s.unread⟩

/-- The longest run of leading characters that satisfy `p`, and the stream after it. -/
def takeWhile (p : Char → Bool) (s : CharStream) : List Char × CharStream :=
  match s.pushedBack.dropWhile p with
  | [] => (s.pushedBack ++ s.unread.takeWhile p, ⟨[], s.unread.dropWhile p⟩)
  | back => (s.pushedBack.takeWhile p, ⟨back, s.unread⟩)

/-- The stream without its first `n` characters. -/
def drop (n : Nat) (s : CharStream) : CharStream :=
  ⟨s.pushedBack.drop n, s.unread.drop (n - s.pushedBack.length)⟩

/-! ## The characters still to come -/

theorem peek?_eq (s : CharStream) : s.peek? = s.remaining.head? := List.head?_append.symm

theorem hasNext_eq (s : CharStream) : s.hasNext = !s.remaining.isEmpty := by
  obtain ⟨_ | ⟨c, back⟩, unread⟩ := s <;> rfl

/-! ## What is left after each operation -/

@[simp] theorem remaining_ofString (text : String) : (ofString text).remaining = text.toList :=
  rfl

@[simp] theorem remaining_putBack (s : CharStream) (c : Char) :
    (s.putBack c).remaining = c :: s.remaining := rfl

theorem remaining_of_next {s rest : CharStream} {c : Char} (h : s.next = .ok (c, rest)) :
    s.remaining = c :: rest.remaining := by
  unfold next at h
  split at h <;> simp at h <;> obtain ⟨rfl, rfl⟩ := h <;> rfl

theorem next_eq_error_iff {s : CharStream} {e : ReadError} :
    s.next = .error e ↔ s.remaining = [] := by
  obtain ⟨_ | ⟨c, back⟩, _ | ⟨d, unread⟩⟩ := s <;> simp [next, remaining]

theorem dropWhile_eq_nil {p : Char → Bool} {cs : List Char} (h : cs.dropWhile p = []) :
    cs.takeWhile p = cs := by
  have := List.takeWhile_append_dropWhile (p := p) (l := cs)
  simpa [h] using this

theorem remaining_takeWhile (p : Char → Bool) (s : CharStream) :
    (s.takeWhile p).1 ++ (s.takeWhile p).2.remaining = s.remaining := by
  unfold takeWhile remaining
  split
  · simp
  · next back h =>
    rw [← List.append_assoc, List.takeWhile_append_dropWhile]

@[simp] theorem remaining_drop (n : Nat) (s : CharStream) :
    (s.drop n).remaining = s.remaining.drop n := by
  simp [drop, remaining, List.drop_append]

theorem length_afterLine_le (cs : List Char) : (afterLine cs).length ≤ cs.length := by
  induction cs with
  | nil => simp [afterLine]
  | cons c cs ih =>
    simp only [afterLine]
    split
    · simp
    · simp only [List.length_cons]
      omega

end CharStream

end WhileLang
