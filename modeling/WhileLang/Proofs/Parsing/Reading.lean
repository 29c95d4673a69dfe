import WhileLang.Proofs.Parsing.Runs

/-!
# What a parser reads

`Phrases α` says which tokens are phrases of some form, and which value each has. `Reads p D`
says of a parser that it gives only values of phrases, and that wherever it stops instead, the
tokens up to there are the beginning of a phrase:

* after a syntax error, the tokens that were consumed;
* after a lexical error, these and the current token, which was accepted but has no successor.

The lemmas prove it for each way of building a parser, so that the phrases of a rule come from
the phrases of its parts.
-/

namespace WhileLang

namespace Parser

open TokenStream

variable {α β : Type}

/-! ## Phrases -/

/-- Which tokens are a phrase, with which value. -/
def Phrases (α : Type) : Type := List Token → α → Prop

namespace Phrases

/-- The tokens are the beginning of a phrase. -/
def Begins (D : Phrases α) (us : List Token) : Prop := ∃ vs a, D (us ++ vs) a

/-- The empty phrase. -/
def nothing (a : α) : Phrases α := fun us b => us = [] ∧ b = a

/-- A phrase and one after it, which may depend on the value of the first. -/
def andThen (D : Phrases α) (F : α → Phrases β) : Phrases β := fun us b =>
  ∃ vs ws a, us = vs ++ ws ∧ D vs a ∧ F a ws b

/-- A phrase or nothing. -/
def perhaps (D : Phrases α) : Phrases (Option α)
  | us, none => us = []
  | us, some a => D us a

/-- A phrase of one form or of the other. -/
def either (D D' : Phrases α) : Phrases α := fun us a => D us a ∨ D' us a

/-- What comes after a phrase that may be missing: `D` without it, and `F` with it. -/
def onward (D : Phrases β) (F : α → Phrases β) : Option α → Phrases β
  | none => D
  | some a => F a

/-- A token that is accepted. -/
def taken (accepts : TokenKind → Option α) : Phrases (α × Token) := fun us r =>
  us = [r.2] ∧ accepts r.2.kind = some r.1

/-- A token of one of the kinds. -/
def oneOf (kinds : List TokenKind) : Phrases Token := fun us t => us = [t] ∧ t.kind ∈ kinds

/-- Any number of phrases, each of which goes on from the value of the one before. -/
inductive Repeated (S : α → Phrases α) : α → List Token → α → Prop where
  | done (a : α) : Repeated S a [] a
  | more {a a' b : α} {us vs : List Token} (h : S a us a') (hs : Repeated S a' vs b) :
      Repeated S a (us ++ vs) b

/-- What grows by each phrase grows by any number of them. -/
theorem Repeated.grow {P : Phrases α} {S : α → Phrases α}
    (hgrow : ∀ us vs a b, P us a → S a vs b → P (us ++ vs) b) {us vs : List Token} {a b : α}
    (ha : P us a) (h : Repeated S a vs b) : P (us ++ vs) b := by
  induction h generalizing us with
  | done a => simpa using ha
  | more h _ ih =>
    rw [← List.append_assoc]
    exact ih (hgrow _ _ _ _ ha h)

theorem Begins.mono {D D' : Phrases α} (hD : ∀ us a, D us a → D' us a) {us : List Token}
    (h : D.Begins us) : D'.Begins us := by
  obtain ⟨vs, a, ha⟩ := h
  exact ⟨vs, a, hD _ _ ha⟩

theorem Begins.andThen {D : Phrases α} {F : α → Phrases β}
    (hF : ∀ us a, D us a → ∃ vs b, F a vs b) {us : List Token} (h : D.Begins us) :
    (D.andThen F).Begins us := by
  obtain ⟨vs, a, ha⟩ := h
  obtain ⟨ws, b, hb⟩ := hF _ _ ha
  exact ⟨vs ++ ws, b, us ++ vs, ws, a, by simp, ha, hb⟩

theorem Begins.after {D : Phrases α} {F : α → Phrases β} {us vs : List Token} {a : α}
    (ha : D us a) (h : (F a).Begins vs) : (D.andThen F).Begins (us ++ vs) := by
  obtain ⟨ws, b, hb⟩ := h
  exact ⟨ws, b, us, vs ++ ws, a, by simp, ha, hb⟩

end Phrases

/-! ## Runs that read phrases -/

/-- How a run on the stream `s` may end, if it reads phrases. -/
inductive Ran (D : Phrases α) (s : TokenStream) : Except ParseError α × TokenStream → Prop where
  | success {us : List Token} {a : α} {rest : TokenStream} (hs : s = us ++ rest)
      (hrest : rest.Readable) (h : D us a) : Ran D s (.ok a, rest)
  | mismatch {us : List Token} {t : Token} {e : Expected} {rest : TokenStream}
      (hs : s = us ++ rest) (hrest : rest.head = .ok t) (h : D.Begins us) :
      Ran D s (.error (.unexpected e t.kind t.position), rest)
  | unreadable {us : List Token} {t : Token} {e : LexError}
      (hs : s = us ++ cons t (ofTokens [] (.failure e))) (h : D.Begins (us ++ [t])) :
      Ran D s (.error (.lexical e), cons t (ofTokens [] (.failure e)))

theorem Ran.mono {D D' : Phrases α} {s : TokenStream}
    {outcome : Except ParseError α × TokenStream} (h : Ran D s outcome)
    (hD : ∀ us a, D us a → D' us a) : Ran D' s outcome := by
  cases h with
  | success hs hrest ha => exact .success hs hrest (hD _ _ ha)
  | mismatch hs hrest hb => exact .mismatch hs hrest (hb.mono hD)
  | unreadable hs hb => exact .unreadable hs (hb.mono hD)

/-- A lexical error is the one that ends the stream. -/
theorem Ran.error?_eq {D : Phrases α} {s rest : TokenStream} {e : LexError}
    (h : Ran D s (.error (.lexical e), rest)) : s.error? = some e := by
  cases h with
  | unreadable hs =>
    rw [hs, error?_append, error?_cons]
    rfl

/-- A run of two parsers reads a phrase and one after it. The second needs to read only what the
first leaves. -/
theorem Ran.bind {p : Parser α} {f : α → Parser β} {D : Phrases α} {F : α → Phrases β}
    {s : TokenStream} (hp : Ran D s (run p s)) (hF : ∀ a, ∃ us b, F a us b)
    (hf : ∀ a rest, run p s = (.ok a, rest) → rest.Readable → Ran (F a) rest (run (f a) rest)) :
    Ran (D.andThen F) s (run (p >>= f) s) := by
  rw [run_bind]
  generalize run p s = outcome at hp hf
  cases hp with
  | mismatch hs hrest hb => exact .mismatch hs hrest (hb.andThen fun _ a _ => hF a)
  | unreadable hs hb => exact .unreadable hs (hb.andThen fun _ a _ => hF a)
  | @success us a rest hs hrest ha =>
    subst hs
    have hran := hf a rest rfl hrest
    dsimp only
    generalize run (f a) rest = outcome at hran
    cases hran with
    | @success vs _ _ hs' hrest' hb =>
      subst hs'
      exact .success (append_append us vs _).symm hrest' ⟨us, vs, a, rfl, ha, hb⟩
    | @mismatch vs _ _ _ hs' hrest' hb =>
      subst hs'
      exact .mismatch (append_append us vs _).symm hrest' (.after ha hb)
    | @unreadable vs t _ hs' hb =>
      subst hs'
      refine .unreadable (append_append us vs _).symm ?_
      rw [List.append_assoc]
      exact .after ha hb

/-- The parser reads phrases, of which there is at least one. -/
structure Reads (p : Parser α) (D : Phrases α) : Prop where
  inhabited : ∃ us a, D us a
  ran : ∀ s, s.Readable → Ran D s (run p s)

theorem Reads.mono {p : Parser α} {D D' : Phrases α} (h : Reads p D)
    (hD : ∀ us a, D us a → D' us a) : Reads p D' := by
  obtain ⟨us, a, ha⟩ := h.inhabited
  exact ⟨⟨us, a, hD us a ha⟩, fun s hs => (h.ran s hs).mono hD⟩

theorem reads_pure (a : α) : Reads (pure a : Parser α) (.nothing a) :=
  ⟨⟨[], a, rfl, rfl⟩, fun _ hs => .success rfl hs ⟨rfl, rfl⟩⟩

theorem Reads.bind_after {p : Parser α} {f : α → Parser β} {D : Phrases α} {F : α → Phrases β}
    (hp : Reads p D) (hF : ∀ a, ∃ us b, F a us b)
    (hf : ∀ s a rest, run p s = (.ok a, rest) → rest.Readable → Ran (F a) rest (run (f a) rest)) :
    Reads (p >>= f) (D.andThen F) := by
  refine ⟨?_, fun s hs => (hp.ran s hs).bind hF (hf s)⟩
  obtain ⟨us, a, ha⟩ := hp.inhabited
  obtain ⟨vs, b, hb⟩ := hF a
  exact ⟨us ++ vs, b, us, vs, a, rfl, ha, hb⟩

theorem Reads.bind {p : Parser α} {f : α → Parser β} {D : Phrases α} {F : α → Phrases β}
    (hp : Reads p D) (hf : ∀ a, Reads (f a) (F a)) : Reads (p >>= f) (D.andThen F) :=
  hp.bind_after (fun a => (hf a).inhabited) fun _ a rest _ hrest => (hf a).ran rest hrest

/-- After a phrase that may be missing, the parser goes on in one of two ways. -/
theorem Reads.bind_perhaps {p : Parser (Option α)} {f : Option α → Parser β} {D : Phrases α}
    {D' : Phrases β} {F : α → Phrases β} (hp : Reads p (.perhaps D)) (hnone : Reads (f none) D')
    (hsome : ∀ a, Reads (f (some a)) (F a)) :
    Reads (p >>= f) (.either D' (D.andThen F)) := by
  have hf : ∀ r, Reads (f r) (Phrases.onward D' F r) := by
    intro r
    cases r with
    | none => exact hnone
    | some a => exact hsome a
  refine (hp.bind hf).mono ?_
  rintro us b ⟨vs, ws, r, rfl, hr, hb⟩
  cases r with
  | none =>
    have hvs : vs = [] := hr
    rw [hvs]
    exact .inl hb
  | some a => exact .inr ⟨vs, ws, a, rfl, hr, hb⟩

theorem Reads.map {p : Parser α} {D : Phrases α} (h : Reads p D) (f : α → β) :
    Reads (f <$> p) (D.andThen fun a => .nothing (f a)) :=
  h.bind fun a => reads_pure (f a)

theorem Reads.inRule {p : Parser α} {D : Phrases α} (h : Reads p D) (rule : RuleName) :
    Reads (p.inRule rule) D :=
  ⟨h.inhabited, fun s hs => by rw [run_inRule]; exact h.ran s hs⟩

/-- A parser that looks ahead reads what each of its branches reads. -/
theorem reads_peek_bind {f : TokenKind → Parser α} {D : Phrases α}
    (hf : ∀ k, Reads (f k) D) : Reads (peek >>= f) D := by
  refine ⟨(hf .endOfText).inhabited, ?_⟩
  intro s hs
  obtain ⟨t, ht⟩ := hs
  rw [run_bind_ok (run_peek (ahead?_of_head ht))]
  exact (hf t.kind).ran s ⟨t, ht⟩

/-- A failure reads phrases of any form, since it reads none. -/
theorem reads_unexpected {D : Phrases α} (hD : ∃ us a, D us a) (e : Expected) :
    Reads (unexpected e : Parser α) D := by
  refine ⟨hD, ?_⟩
  intro s hs
  obtain ⟨t, ht⟩ := hs
  obtain ⟨us, a, ha⟩ := hD
  rw [run_unexpected ht]
  exact .mismatch (nil_append s).symm ht ⟨us, a, ha⟩

theorem reads_take? (accepts : TokenKind → Option α) :
    Reads (take? accepts) (.perhaps (.taken accepts)) := by
  refine ⟨⟨[], none, rfl⟩, ?_⟩
  intro s hs
  rcases s.eq_ended_or_cons with he | ⟨t, s', rfl⟩
  · rw [he, run_take?_ended, ← he]
    exact .success (nil_append s).symm hs rfl
  · cases ha : accepts t.kind with
    | none =>
      rw [run_take?_none s' ha]
      exact .success (nil_append _).symm hs rfl
    | some a =>
      cases hhead : s'.head with
      | error e =>
        rw [run_take?_failure ha hhead, eq_failure_of_head hhead]
        exact .unreadable (nil_append _).symm ⟨[], some (a, t), rfl, ha⟩
      | ok t' =>
        rw [run_take?_some ha ⟨t', hhead⟩]
        exact .success (cons_append t [] s').symm ⟨t', hhead⟩ ⟨rfl, ha⟩

theorem reads_expect {kinds : List TokenKind} (h : kinds ≠ []) :
    Reads (expect kinds) (.oneOf kinds) := by
  obtain ⟨k, hk⟩ := List.exists_mem_of_ne_nil kinds h
  have hsome : ∃ us t, Phrases.oneOf kinds us t :=
    ⟨[⟨k, "", .start⟩], ⟨k, "", .start⟩, rfl, hk⟩
  refine ((reads_take? _).bind_perhaps (reads_unexpected hsome _) fun r => reads_pure r.2).mono ?_
  rintro us t (ht | ⟨_, _, r, rfl, ⟨rfl, hk⟩, rfl, rfl⟩)
  · exact ht
  · exact ⟨rfl, by simpa using hk⟩

/-! ## Recursion -/

/-- Where the parser succeeds, the current token is of a kind in `S`. -/
def Exits (S : TokenKind → Prop) (p : Parser α) : Prop :=
  ∀ s a rest, run p s = (.ok a, rest) → ∀ k, rest.ahead? = some k → S k

theorem not_run_unexpected_ok {e : Expected} {s rest : TokenStream} {a : α} :
    run (unexpected e) s ≠ (.ok a, rest) := by
  intro h
  simp only [run, unexpected] at h
  split at h <;> cases h

/-- A recursive parser reads what its body reads, given a parser that does. The body may also use
where the parser that it is given exits, if that can be said of all bodies. -/
theorem reads_fix_of_exits {body : (β → Parser α) → β → Parser α} {D : β → Phrases α}
    {S : TokenKind → Prop} (hD : ∀ b, ∃ us a, D b us a)
    (hexit : ∀ p b, Exits S (body p b))
    (hbody : ∀ p, (∀ b, Reads (p b) (D b)) → (∀ b, Exits S (p b)) → ∀ b, Reads (body p b) (D b))
    (b : β) : Reads (fix body b) (D b) := by
  refine ⟨hD b, ?_⟩
  intro s
  generalize hn : s.length = n
  induction n using Nat.strongRecOn generalizing b s with
  | ind n ih =>
    intro hs
    rw [run_fix]
    -- on a stream that is not shorter the body is given a parser that fails
    refine (hbody _ (fun b' => ⟨hD b', fun s' hs' => ?_⟩) (fun b' s' a rest h => ?_) b).ran s hs
    · by_cases hlt : s'.length < s.length
      · have hran := ih s'.length (hn ▸ hlt) b' s' rfl hs'
        simpa [run, hlt] using hran
      · have hran := (reads_unexpected (hD b') (.oneOf [])).ran s' hs'
        simpa [run, hlt] using hran
    · by_cases hlt : s'.length < s.length
      · have hfix : run (fix body b') s' = (.ok a, rest) := by simpa [run, hlt] using h
        rw [run_fix] at hfix
        exact hexit _ b' s' a rest hfix
      · have hnever : run (unexpected (.oneOf []) : Parser α) s' = (.ok a, rest) := by
          simpa [run, hlt] using h
        exact absurd hnever not_run_unexpected_ok

theorem reads_fix {body : (β → Parser α) → β → Parser α} {D : β → Phrases α}
    (hD : ∀ b, ∃ us a, D b us a)
    (hbody : ∀ p, (∀ b, Reads (p b) (D b)) → ∀ b, Reads (body p b) (D b)) (b : β) :
    Reads (fix body b) (D b) :=
  reads_fix_of_exits (S := fun _ => True) hD (fun _ _ _ _ _ _ _ _ => trivial)
    (fun p hp _ => hbody p hp) b

theorem reads_iterate {step : α → Parser (Option α)} {S : α → Phrases α}
    (hstep : ∀ a, Reads (step a) (.perhaps (S a))) (a : α) :
    Reads (iterate step a) (Phrases.Repeated S a) := by
  refine reads_fix (fun a => ⟨[], a, .done a⟩) (fun again hagain a => ?_) a
  refine ((hstep a).bind_perhaps (reads_pure a) fun a' => hagain a').mono ?_
  rintro us b (⟨rfl, rfl⟩ | ⟨vs, ws, a', rfl, h, hb⟩)
  · exact .done b
  · exact .more h hb

end Parser

end WhileLang
