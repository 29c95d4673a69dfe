import WhileLang.Proofs.Parsing.Descent

/-!
# The pace of a descent

A parser consumes a token just when it has read the one after it. `Paced` says this of the events
between two streams, so that the tokens read and those consumed can be told from the streams. Every
descent is paced, wherever it ends.
-/

namespace WhileLang

open Grammar TokenStream

/-! ## The events of tokens -/

def ParseEvent.read? : ParseEvent → Option Token
  | .read t => some t
  | .consumed _ | .enter _ | .leave _ => none

def ParseEvent.consumed? : ParseEvent → Option Token
  | .consumed t => some t
  | .read _ | .enter _ | .leave _ => none

def tokensRead (events : List ParseEvent) : List Token := events.filterMap ParseEvent.read?

def tokensConsumed (events : List ParseEvent) : List Token := events.filterMap ParseEvent.consumed?

@[simp] theorem tokensConsumed_append (es fs : List ParseEvent) :
    tokensConsumed (es ++ fs) = tokensConsumed es ++ tokensConsumed fs := List.filterMap_append

/-- The events lead from one stream to another, and each token is consumed just when the one after
it has been read. -/
inductive Paced : TokenStream → List ParseEvent → TokenStream → Prop where
  | stop (s : TokenStream) : Paced s [] s
  | consume {t next : Token} {s rest : TokenStream} {es : List ParseEvent}
      (hs : s.head = .ok next) (h : Paced s es rest) :
      Paced (cons t s) (.read next :: .consumed t :: es) rest
  | skip {event : ParseEvent} {s rest : TokenStream} {es : List ParseEvent}
      (hread : event.read? = none) (hconsumed : event.consumed? = none) (h : Paced s es rest) :
      Paced s (event :: es) rest

namespace Paced

variable {s s' rest : TokenStream} {es fs : List ParseEvent}

theorem append (h : Paced s es s') (h' : Paced s' fs rest) : Paced s (es ++ fs) rest := by
  induction h with
  | stop => exact h'
  | consume hs _ ih => exact .consume hs (ih h')
  | skip hread hconsumed _ ih => exact .skip hread hconsumed (ih h')

/-- What is consumed is what the stream has lost. -/
theorem eq_append (h : Paced s es rest) : s = tokensConsumed es ++ rest := by
  induction h with
  | stop => rfl
  | @consume t _ _ _ _ _ _ ih => exact congrArg (cons t) ih
  | skip _ hconsumed _ ih =>
    rw [tokensConsumed, List.filterMap_cons_none hconsumed]
    exact ih

theorem readable (h : Paced s es rest) (hs : s.Readable) : rest.Readable := by
  induction h with
  | stop => exact hs
  | consume hnext _ ih => exact ih ⟨_, hnext⟩
  | skip _ _ _ ih => exact ih hs

/-- With the current token, one token more is read than consumed. -/
theorem read_eq (h : Paced s es rest) {first : Token} (hs : s.head = .ok first) :
    first :: tokensRead es = s.listing.take ((tokensConsumed es).length + 1) := by
  induction h generalizing first with
  | stop s =>
    obtain ⟨ts, hts⟩ := exists_listing_of_head hs
    rw [hts]
    rfl
  | @consume t next s _ es hnext _ ih =>
    obtain rfl : t = first := Except.ok.inj hs
    rw [listing_cons]
    exact congrArg (t :: ·) (ih hnext)
  | skip hread hconsumed _ ih =>
    rw [tokensRead, tokensConsumed, List.filterMap_cons_none hread,
      List.filterMap_cons_none hconsumed]
    exact ih hs

/-- A token is consumed as the current one, just after the next one was read. -/
theorem split (h : Paced s es rest) {before after : List ParseEvent} {t : Token}
    (hes : es = before ++ .consumed t :: after) :
    ∃ earlier next s', before = earlier ++ [.read next] ∧ Paced s earlier (cons t s') ∧
      s'.head = .ok next := by
  induction h generalizing before with
  | stop =>
    rw [List.nil_eq_append_iff] at hes
    exact absurd hes.2 (List.cons_ne_nil _ _)
  | @consume u next s rest es hnext h ih =>
    rcases before with _ | ⟨_, _ | ⟨_, before⟩⟩
    · cases hes
    · cases hes
      exact ⟨[], next, s, rfl, .stop _, hnext⟩
    · cases hes
      obtain ⟨earlier, next', s', rfl, hearlier, hs'⟩ := ih rfl
      exact ⟨_ :: _ :: earlier, next', s', rfl, .consume hnext hearlier, hs'⟩
  | @skip event s rest es hread hconsumed h ih =>
    cases before with
    | nil =>
      cases hes
      cases hconsumed
    | cons event before =>
      cases hes
      obtain ⟨earlier, next, s', rfl, hearlier, hs'⟩ := ih rfl
      exact ⟨_ :: earlier, next, s', rfl, .skip hread hconsumed hearlier, hs'⟩

theorem take_listing (h : Paced s es rest) (hs : s.Readable) :
    (tokensConsumed es).length < s.listing.length ∧
      s.listing.take (tokensConsumed es).length = tokensConsumed es := by
  obtain ⟨next, hnext⟩ := h.readable hs
  have heq := h.eq_append
  generalize tokensConsumed es = us at heq
  subst heq
  refine ⟨?_, take_listing_append us rest⟩
  exact (List.getElem?_eq_some_iff.mp (getElem?_listing_append us hnext)).1

theorem dropLast_take (h : Paced s es rest) (hs : s.Readable) :
    (s.listing.take ((tokensConsumed es).length + 1)).dropLast = tokensConsumed es := by
  obtain ⟨hlt, htake⟩ := h.take_listing hs
  rw [List.take_add_one, List.getElem?_eq_getElem hlt, htake]
  exact List.dropLast_concat

/-- The current token and the one after it stand in the listing after those that were consumed. -/
theorem at_consumed {t next : Token} (h : Paced s es (cons t rest))
    (hnext : rest.head = .ok next) :
    s.listing[(tokensConsumed es).length]? = some t ∧
      s.listing[(tokensConsumed es).length + 1]? = some next := by
  have heq := h.eq_append
  generalize tokensConsumed es = us at heq
  subst heq
  refine ⟨getElem?_listing_append us rfl, ?_⟩
  have happend := getElem?_listing_append (us ++ [t]) hnext
  rwa [append_append, List.length_append] at happend

end Paced

namespace Grammar

variable {φ : Phrase} {s rest : TokenStream} {es : List ParseEvent} {calls : List RuleCall}
  {e : ParseError}

theorem Completes.paced (h : Completes φ s es rest) : Paced s es rest := by
  induction h with
  | word _ hs => exact .consume hs (.stop _)
  | rule _ ih => exact .skip rfl rfl (ih.append (.skip rfl rfl (.stop _)))
  | sequence _ _ ihp ihq => exact ihp.append ihq
  | left _ ih | right _ ih | present _ ih => exact ih
  | absent s | done s => exact .stop s
  | more _ _ ih ihs => exact ih.append ihs

theorem Breaks.paced (h : Breaks φ s es rest calls e) : Paced s es rest := by
  induction h with
  | word | neither => exact .stop _
  | rule _ _ ih => exact .skip rfl rfl ih
  | first _ ih | left _ ih | right _ ih | present _ ih | round _ ih => exact ih
  | second hp _ ih => exact hp.paced.append ih
  | later h _ ih => exact h.paced.append ih

/-- Where a descent breaks off, it is stuck. -/
theorem Breaks.stuck (h : Breaks φ s es rest calls e) : Stuck rest e := by
  induction h with
  | word h | neither h => exact h
  | rule _ _ ih | first _ ih | second _ _ ih | left _ ih | right _ ih | present _ ih
    | round _ ih | later _ _ ih => exact ih

/-- The tokens that a completed descent consumes are derived from its phrase. -/
theorem Completes.derives_consumed (h : Completes φ s es rest) :
    Derives φ ((tokensConsumed es).map Token.kind) := by
  obtain ⟨us, hs, hd⟩ := h.exists_append
  have htokens := congrArg TokenStream.tokens (h.paced.eq_append.symm.trans hs)
  rw [tokens_append, tokens_append] at htokens
  rwa [List.append_cancel_right htokens]

/-- A lexical error breaks a descent off when all tokens have been read. -/
theorem Breaks.length_consumed {x : LexError} (h : Breaks φ s es rest calls (.lexical x)) :
    s.listing.length = (tokensConsumed es).length + 1 := by
  have heq := h.paced.eq_append
  cases h.stuck with
  | unreadable t =>
    rw [heq, listing_append, listing_cons, List.length_append]
    rfl

theorem Follows.paced {α : Type} {o : Outcome α} (h : Follows φ s o) : Paced s o.events o.rest := by
  cases h with
  | completed h => exact h.paced
  | broken h => exact h.paced

end Grammar

end WhileLang
