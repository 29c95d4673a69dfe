import WhileLang.Grammar.Recursion

/-!
# Runs of parsers

`Parser.run` is a fully traced parser without its events: the result and the stream that is left.
Streams are taken apart as `us ++ s`, the tokens `us` in front of the stream `s`. The lemmas say
what each way of building a parser does to a run, so that no later proof opens one.
-/

namespace WhileLang

/-! ## Streams -/

namespace TokenStream

instance : HAppend (List Token) TokenStream TokenStream := ⟨fun us s => us.foldr cons s⟩

@[simp] theorem nil_append (s : TokenStream) : ([] : List Token) ++ s = s := rfl

@[simp] theorem cons_append (t : Token) (us : List Token) (s : TokenStream) :
    (t :: us) ++ s = cons t (us ++ s) := rfl

@[simp] theorem append_append (us vs : List Token) (s : TokenStream) :
    (us ++ vs) ++ s = us ++ (vs ++ s) := by
  induction us with
  | nil => rfl
  | cons u us ih => exact congrArg (cons u) ih

@[simp] theorem tail_cons (t : Token) (s : TokenStream) : (cons t s).tail = s := by
  obtain ⟨tokens, ending, _, rfl⟩ := s
  rfl

@[simp] theorem tokens_cons (t : Token) (s : TokenStream) : (cons t s).tokens = t :: s.tokens :=
  rfl

@[simp] theorem length_cons (t : Token) (s : TokenStream) : (cons t s).length = s.length + 1 :=
  rfl

@[simp] theorem length_append (us : List Token) (s : TokenStream) :
    (us ++ s).length = us.length + s.length := by
  induction us with
  | nil => simp
  | cons u us ih => simp [ih]; omega

@[simp] theorem tokens_append (us : List Token) (s : TokenStream) :
    (us ++ s).tokens = us ++ s.tokens := by
  induction us with
  | nil => rfl
  | cons u us ih => simp [ih]

theorem append_ended (us : List Token) (e : StreamEnd) : us ++ ofTokens [] e = ofTokens us e := by
  induction us with
  | nil => rfl
  | cons u us ih => rw [cons_append, ih, cons_ofTokens]

@[simp] theorem listing_cons (t : Token) (s : TokenStream) :
    (cons t s).listing = t :: s.listing := by
  obtain ⟨tokens, ending, _, rfl⟩ := s
  cases ending <;> rfl

@[simp] theorem listing_append (us : List Token) (s : TokenStream) :
    (us ++ s).listing = us ++ s.listing := by
  induction us with
  | nil => rfl
  | cons u us ih => simp [ih]

@[simp] theorem error?_cons (t : Token) (s : TokenStream) : (cons t s).error? = s.error? := rfl

@[simp] theorem error?_append (us : List Token) (s : TokenStream) :
    (us ++ s).error? = s.error? := by
  induction us with
  | nil => rfl
  | cons u us ih => simp [ih]

/-- A stream has ended or begins with a token. -/
theorem eq_ended_or_cons (s : TokenStream) :
    s = ofTokens [] s.ending ∨ ∃ t s', s = cons t s' := by
  obtain ⟨tokens, ending, _, rfl⟩ := s
  cases tokens with
  | nil => exact .inl rfl
  | cons t ts => exact .inr ⟨t, ofTokens ts ending, rfl⟩

/-- The kind of the current token. -/
def ahead? (s : TokenStream) : Option TokenKind :=
  match s.head with
  | .ok t => some t.kind
  | .error _ => none

@[simp] theorem ahead?_cons (t : Token) (s : TokenStream) : (cons t s).ahead? = some t.kind := rfl

theorem head_of_ahead? {s : TokenStream} {k : TokenKind} (h : s.ahead? = some k) :
    ∃ t, s.head = .ok t ∧ t.kind = k := by
  unfold ahead? at h
  split at h
  · next t ht => exact ⟨t, ht, Option.some.inj h⟩
  · cases h

theorem ahead?_of_head {s : TokenStream} {t : Token} (h : s.head = .ok t) :
    s.ahead? = some t.kind := by
  simp [ahead?, h]

/-- The current token can be read. -/
def Readable (s : TokenStream) : Prop := ∃ t, s.head = .ok t

theorem readable_cons (t : Token) (s : TokenStream) : (cons t s).Readable := ⟨t, rfl⟩

theorem Readable.append {s : TokenStream} (h : s.Readable) (us : List Token) :
    (us ++ s).Readable := by
  cases us with
  | nil => exact h
  | cons u us => exact readable_cons u _

theorem readable_of_ahead? {s : TokenStream} {k : TokenKind} (h : s.ahead? = some k) :
    s.Readable := by
  obtain ⟨t, ht, -⟩ := head_of_ahead? h
  exact ⟨t, ht⟩

/-- A stream that is not readable is the error that ends it. -/
theorem eq_failure_of_head {s : TokenStream} {e : LexError} (h : s.head = .error e) :
    s = ofTokens [] (.failure e) := by
  obtain ⟨_ | ⟨t, ts⟩, ending, _, rfl⟩ := s
  · cases ending with
    | endOfText p => cases h
    | failure e' =>
      cases h
      rfl
  · cases h

/-- The current token is the first of the listing. -/
theorem exists_listing_of_head {s : TokenStream} {t : Token} (h : s.head = .ok t) :
    ∃ ts, s.listing = t :: ts := by
  obtain ⟨_ | ⟨u, ts⟩, ending, _, rfl⟩ := s <;> cases ending <;> simp_all [listing, head]

/-- The token at a place of the listing is the current one of what is left there. -/
theorem exists_append_of_getElem? {s : TokenStream} {i : Nat} {t : Token}
    (h : s.listing[i]? = some t) :
    ∃ rest : TokenStream, s = s.listing.take i ++ rest ∧ rest.head = .ok t := by
  induction i generalizing s with
  | zero =>
    refine ⟨s, rfl, ?_⟩
    obtain ⟨_ | ⟨u, ts⟩, ending, _, rfl⟩ := s <;> cases ending <;>
      simp_all [listing, head]
  | succ i ih =>
    rcases s.eq_ended_or_cons with he | ⟨u, s', rfl⟩
    · rw [he] at h
      generalize s.ending = e at h
      cases e <;> simp [listing, ofTokens] at h
    · rw [listing_cons, List.getElem?_cons_succ] at h
      obtain ⟨rest, hrest, ht⟩ := ih h
      refine ⟨rest, ?_, ht⟩
      rw [listing_cons, List.take_succ_cons, cons_append, ← hrest]

theorem getElem?_listing_append (us : List Token) {rest : TokenStream} {t : Token}
    (h : rest.head = .ok t) : (us ++ rest).listing[us.length]? = some t := by
  rw [listing_append, List.getElem?_append_right (Nat.le_refl _), Nat.sub_self]
  obtain ⟨_ | ⟨u, ts⟩, ending, _, rfl⟩ := rest <;> cases ending <;> simp_all [listing, head]

theorem take_listing_append (us : List Token) (s : TokenStream) :
    (us ++ s).listing.take us.length = us := by
  rw [listing_append, List.take_left]

end TokenStream

/-! ## Runs -/

/-- An outcome without its events. -/
def Outcome.quiet {α : Type} (o : Outcome α) : Except ParseError α × TokenStream :=
  (o.result, o.rest)

@[simp] theorem Outcome.quiet_mk {α : Type} (result : Except ParseError α) (rest : TokenStream)
    (events : List ParseEvent) : Outcome.quiet ⟨result, rest, events⟩ = (result, rest) := rfl

namespace Parser

variable {α β : Type}

/-- The result of a parser and the stream that it leaves. What is traced makes no difference to
them, so a run traces everything (`Inert.quiet_eq`). -/
def run (p : Parser α) (s : TokenStream) : Except ParseError α × TokenStream := (p .full s).quiet

theorem run_bind (p : Parser α) (f : α → Parser β) (s : TokenStream) :
    run (p >>= f) s =
      match run p s with
      | (.ok a, rest) => run (f a) rest
      | (.error e, rest) => (.error e, rest) := by
  change run (andThen p f) s = _
  simp only [run, andThen]
  obtain ⟨_ | _, rest, events⟩ := p .full s <;> rfl

theorem run_bind_ok {p : Parser α} {s rest : TokenStream} {a : α} (h : run p s = (.ok a, rest))
    (f : α → Parser β) : run (p >>= f) s = run (f a) rest := by
  rw [run_bind, h]

/-- A successful run of two parsers is one of the first and one of the second. -/
theorem exists_of_run_bind {p : Parser α} {f : α → Parser β} {s rest : TokenStream} {b : β}
    (h : run (p >>= f) s = (.ok b, rest)) :
    ∃ a s', run p s = (.ok a, s') ∧ run (f a) s' = (.ok b, rest) := by
  rw [run_bind] at h
  split at h
  · next a s' ha => exact ⟨a, s', ha, h⟩
  · cases h

theorem run_map (f : α → β) (p : Parser α) (s : TokenStream) :
    run (f <$> p) s =
      match run p s with
      | (.ok a, rest) => (.ok (f a), rest)
      | (.error e, rest) => (.error e, rest) :=
  run_bind p (fun a => pure (f a)) s

@[simp] theorem run_inRule (rule : RuleName) (p : Parser α) (s : TokenStream) :
    run (p.inRule rule) s = run p s := by
  simp only [run, inRule]
  obtain ⟨_ | _, rest, events⟩ := p .full s <;> rfl

theorem run_peek {s : TokenStream} {k : TokenKind} (h : s.ahead? = some k) :
    run peek s = (.ok k, s) := by
  obtain ⟨t, ht, rfl⟩ := TokenStream.head_of_ahead? h
  simp [run, peek, ht]

theorem run_unexpected {s : TokenStream} {t : Token} (h : s.head = .ok t) (e : Expected) :
    run (unexpected e : Parser α) s = (.error (.unexpected e t.kind t.position), s) := by
  simp [run, unexpected, h]

theorem run_take?_ended (accepts : TokenKind → Option α) (e : StreamEnd) :
    run (take? accepts) (.ofTokens [] e) = (.ok none, .ofTokens [] e) := rfl

theorem run_take?_none {accepts : TokenKind → Option α} {t : Token} (s : TokenStream)
    (h : accepts t.kind = none) :
    run (take? accepts) (.cons t s) = (.ok none, .cons t s) := by
  simp [run, take?, h]

theorem run_take?_some {accepts : TokenKind → Option α} {t : Token} {s : TokenStream} {a : α}
    (h : accepts t.kind = some a) (hs : s.Readable) :
    run (take? accepts) (.cons t s) = (.ok (some (a, t)), s) := by
  obtain ⟨t', ht'⟩ := hs
  simp [run, take?, h, ht']

theorem run_take?_failure {accepts : TokenKind → Option α} {t : Token} {s : TokenStream} {a : α}
    {e : LexError} (h : accepts t.kind = some a) (hs : s.head = .error e) :
    run (take? accepts) (.cons t s) = (.error (.lexical e), .cons t s) := by
  simp [run, take?, h, hs]

/-- Nothing is taken where the current token is not accepted. -/
theorem run_take?_skip {accepts : TokenKind → Option α} {s : TokenStream} {k : TokenKind}
    (hs : s.ahead? = some k) (h : accepts k = none) :
    run (take? accepts) s = (.ok none, s) := by
  rcases s.eq_ended_or_cons with he | ⟨t, s', rfl⟩
  · rw [he]
    exact run_take?_ended accepts _
  · rw [TokenStream.ahead?_cons, Option.some.injEq] at hs
    exact run_take?_none s' (hs ▸ h)

theorem run_expect_cons {kinds : List TokenKind} {t : Token} {s : TokenStream}
    (h : t.kind ∈ kinds) (hs : s.Readable) : run (expect kinds) (.cons t s) = (.ok t, s) := by
  unfold expect
  rw [run_bind_ok (run_take?_some (a := ()) (by simp [h]) hs)]
  rfl

/-! ## Repetitions -/

theorem run_fix (body : (β → Parser α) → β → Parser α) (b : β) (s : TokenStream) :
    run (fix body b) s =
      run (body (fun b' tracing s' =>
        if s'.length < s.length then fix body b' tracing s'
        else unexpected (.oneOf []) tracing s') b) s := by
  unfold run
  rw [fix]

theorem run_iterate_none {step : α → Parser (Option α)} {a : α} {s rest : TokenStream}
    (h : run (step a) s = (.ok none, rest)) : run (iterate step a) s = (.ok a, rest) := by
  unfold iterate
  rw [run_fix, run_bind_ok h]
  rfl

theorem run_iterate_some {step : α → Parser (Option α)} {a a' : α} {s rest : TokenStream}
    (h : run (step a) s = (.ok (some a'), rest)) (hrest : rest.length < s.length) :
    run (iterate step a) s = run (iterate step a') rest := by
  unfold iterate
  rw [run_fix, run_bind_ok h]
  simp [run, hrest]

/-- A successful loop ends at once or goes through a round that consumes a token. -/
theorem exists_of_run_iterate {step : α → Parser (Option α)} {a b : α} {s rest : TokenStream}
    (h : run (iterate step a) s = (.ok b, rest)) :
    run (step a) s = (.ok none, rest) ∨
      ∃ a' s', run (step a) s = (.ok (some a'), s') ∧ s'.length < s.length ∧
        run (iterate step a') s' = (.ok b, rest) := by
  unfold iterate at h
  rw [run_fix] at h
  obtain ⟨r, s', hr, h⟩ := exists_of_run_bind h
  cases r with
  | none =>
    cases h
    exact .inl hr
  | some a' =>
    by_cases hlt : s'.length < s.length
    · refine .inr ⟨a', s', hr, hlt, ?_⟩
      unfold iterate
      simpa [run, hlt] using h
    · simp only [run, hlt, if_false, unexpected] at h
      split at h <;> cases h

end Parser

end WhileLang
