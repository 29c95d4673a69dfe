import WhileLang.Proofs.Building.Shapes
import WhileLang.Proofs.Parsing.Runs

/-!
# Runs in parallel

The same rule on two streams that begin with tokens of the same shape, in front of rests that may
differ from their second token on. As long as neither run has gone beyond the common part, both
are at the same place, and what they have found differs at most in its positions.

* `Parallel`: how two such runs may end.
* `RunAlike`: two parsers of which any two such runs end like that; one lemma for each way of
  building a parser.
-/

namespace WhileLang

namespace TokenStream

/-- The two streams have ended in the same way, or begin with tokens of the same kind. -/
inductive SameFront : TokenStream → TokenStream → Prop where
  | ended (p p' : Position) :
      SameFront (ofTokens [] (.endOfText p)) (ofTokens [] (.endOfText p'))
  | failed (e e' : LexError) : SameFront (ofTokens [] (.failure e)) (ofTokens [] (.failure e'))
  | token {t t' : Token} (h : t.kind = t'.kind) (s s' : TokenStream) :
      SameFront (cons t s) (cons t' s')

/-- Either both streams show a token of one kind, or neither shows any. -/
theorem SameFront.head {s s' : TokenStream} (h : SameFront s s') :
    (∃ t t', s.head = .ok t ∧ s'.head = .ok t' ∧ t.kind = t'.kind) ∨
      ∃ e e', s = ofTokens [] (.failure e) ∧ s' = ofTokens [] (.failure e') := by
  cases h with
  | ended p p' => exact .inl ⟨_, _, rfl, rfl, rfl⟩
  | failed e e' => exact .inr ⟨e, e', rfl, rfl⟩
  | token h s s' => exact .inl ⟨_, _, rfl, rfl, h⟩

theorem SameFront.append {r r' : TokenStream} (h : SameFront r r') {us us' : List Token}
    (hus : us.map Token.shape = us'.map Token.shape) : SameFront (us ++ r) (us' ++ r') := by
  cases us with
  | nil =>
    rw [List.map_nil] at hus
    rw [List.map_eq_nil_iff.mp hus.symm]
    exact h
  | cons u us =>
    cases us' with
    | nil => cases hus
    | cons u' us' =>
      rw [List.map_cons, List.map_cons, List.cons.injEq, Token.shape_eq_iff] at hus
      exact .token hus.1.1 _ _

end TokenStream

namespace Parser

open TokenStream

variable {α β γ δ : Type}

/-- How two runs may end, over tokens of the same shape in front of `r` and `r'`: with values that
`er` does not tell apart, at the same place; or with the same error there; or the first has gone
beyond the common part. -/
inductive Parallel (r r' : TokenStream) (er : α → γ) :
    Except ParseError α × TokenStream → Except ParseError α × TokenStream → Prop where
  | success {us us' : List Token} {a a' : α}
      (hus : us.map Token.shape = us'.map Token.shape) (h : er a = er a') :
      Parallel r r' er (.ok a, us ++ r) (.ok a', us' ++ r')
  | mismatch {us us' : List Token} {t t' : Token} (e : Expected)
      (hus : us.map Token.shape = us'.map Token.shape) (ht : (us ++ r).head = .ok t)
      (ht' : (us' ++ r').head = .ok t') (hk : t.kind = t'.kind) :
      Parallel r r' er (.error (.unexpected e t.kind t.position), us ++ r)
        (.error (.unexpected e t'.kind t'.position), us' ++ r')
  | unreadable {us us' : List Token} {e e' : LexError}
      (hus : us.map Token.shape = us'.map Token.shape) (hr : r = ofTokens [] (.failure e))
      (hr' : r' = ofTokens [] (.failure e')) :
      Parallel r r' er (.error (.lexical e), us ++ r) (.error (.lexical e'), us' ++ r')
  | beyond {o o' : Except ParseError α × TokenStream}
      (h : o.2.length < r.length ∨ r.Readable ∧ ∃ e, o.1 = .error (.lexical e)) :
      Parallel r r' er o o'

/-- Neither run has consumed a token. -/
theorem Parallel.stay {r r' : TokenStream} {er : α → γ} {a a' : α} (h : er a = er a') :
    Parallel r r' er (.ok a, r) (.ok a', r') := by
  have hboth : Parallel r r' er (.ok a, ([] : List Token) ++ r) (.ok a', ([] : List Token) ++ r') :=
    .success rfl h
  rwa [nil_append, nil_append] at hboth

/-- Two runs that succeed before they go beyond the common part find the same. -/
theorem Parallel.eq_of_ok {r r' s s' : TokenStream} {er : α → γ} {a a' : α}
    (h : Parallel r r' er (.ok a, s) (.ok a', s')) (hs : r.length ≤ s.length) : er a = er a' := by
  cases h with
  | success _ h => exact h
  | beyond h =>
    rcases h with hlt | ⟨-, e, he⟩
    · exact absurd hlt (Nat.not_lt.mpr hs)
    · cases he

/-- Runs of the two parsers over tokens of the same shape end in parallel. -/
structure RunAlike (r r' : TokenStream) (er : α → γ) (p p' : Parser α) : Prop where
  receding : Receding p
  parallel : ∀ us us' : List Token, us.map Token.shape = us'.map Token.shape →
    Parallel r r' er (run p (us ++ r)) (run p' (us' ++ r'))

variable {r r' : TokenStream} {er : α → γ} {es : β → δ}

theorem runAlike_pure {a a' : α} (h : er a = er a') :
    RunAlike r r' er (pure a) (pure a') :=
  ⟨receding_pure a, fun _ _ hus => .success hus h⟩

theorem RunAlike.bind {p p' : Parser α} {f f' : α → Parser β} (hp : RunAlike r r' er p p')
    (hf : ∀ a a', er a = er a' → RunAlike r r' es (f a) (f' a')) :
    RunAlike r r' es (p >>= f) (p' >>= f') := by
  have hrec : ∀ a, Receding (f a) := fun a => (hf a a rfl).receding
  refine ⟨hp.receding.bind hrec, ?_⟩
  intro us us' hus
  have hpar := hp.parallel us us' hus
  rw [run_bind, run_bind]
  generalize run p (us ++ r) = o at hpar ⊢
  generalize run p' (us' ++ r') = o' at hpar ⊢
  cases hpar with
  | success hus h => exact (hf _ _ h).parallel _ _ hus
  | mismatch e hus ht ht' hk => exact .mismatch e hus ht ht' hk
  | unreadable hus hr hr' => exact .unreadable hus hr hr'
  | beyond h =>
    obtain ⟨result, rest⟩ := o
    cases result with
    | error e => exact .beyond (h.imp_right fun ⟨hr, e', he⟩ => ⟨hr, e', by cases he; rfl⟩)
    | ok a =>
      rcases h with hlt | ⟨-, e, he⟩
      · exact .beyond (.inl (Nat.lt_of_le_of_lt (hrec a .full rest) hlt))
      · cases he

theorem RunAlike.map {p p' : Parser α} (hp : RunAlike r r' er p p') (f : α → β)
    (hf : ∀ a a', er a = er a' → es (f a) = es (f a')) :
    RunAlike r r' es (f <$> p) (f <$> p') :=
  hp.bind fun a a' h => runAlike_pure (hf a a' h)

theorem RunAlike.inRule {p p' : Parser α} (hp : RunAlike r r' er p p') (rule : RuleName) :
    RunAlike r r' er (p.inRule rule) (p'.inRule rule) := by
  refine ⟨hp.receding.inRule rule, ?_⟩
  intro us us' hus
  rw [run_inRule, run_inRule]
  exact hp.parallel us us' hus

/-! ## Looking at tokens -/

theorem eq_nil_of_append_eq_failure {us : List Token} {s : TokenStream} {e : LexError}
    (h : us ++ s = ofTokens [] (.failure e)) : us = [] ∧ s = ofTokens [] (.failure e) := by
  cases us with
  | nil => exact ⟨rfl, h⟩
  | cons u us => cases congrArg TokenStream.tokens h

theorem runAlike_peek_bind (hfront : SameFront r r') {f f' : TokenKind → Parser α}
    (hf : ∀ k, RunAlike r r' er (f k) (f' k)) :
    RunAlike r r' er (peek >>= f) (peek >>= f') := by
  refine ⟨receding_peek.bind fun k => (hf k).receding, ?_⟩
  intro us us' hus
  rcases (hfront.append hus).head with ⟨t, t', ht, ht', hk⟩ | ⟨e, e', he, he'⟩
  · rw [run_bind_ok (run_peek (ahead?_of_head ht)), run_bind_ok (run_peek (ahead?_of_head ht')),
      ← hk]
    exact (hf t.kind).parallel us us' hus
  · obtain ⟨rfl, hr⟩ := eq_nil_of_append_eq_failure he
    obtain ⟨rfl, hr'⟩ := eq_nil_of_append_eq_failure he'
    have hlexical : ∀ (g : TokenKind → Parser α) (e : LexError),
        run (peek >>= g) (ofTokens [] (.failure e)) =
          (.error (.lexical e), ofTokens [] (.failure e)) := fun g e => rfl
    rw [he, he', hlexical, hlexical, ← he, ← he']
    exact .unreadable rfl hr hr'

theorem runAlike_unexpected (hfront : SameFront r r') (e : Expected) :
    RunAlike r r' er (unexpected e) (unexpected e) := by
  refine ⟨receding_unexpected e, ?_⟩
  intro us us' hus
  rcases (hfront.append hus).head with ⟨t, t', ht, ht', hk⟩ | ⟨e₁, e₁', he, he'⟩
  · rw [run_unexpected ht, run_unexpected ht']
    exact .mismatch e hus ht ht' hk
  · obtain ⟨rfl, hr⟩ := eq_nil_of_append_eq_failure he
    obtain ⟨rfl, hr'⟩ := eq_nil_of_append_eq_failure he'
    have hlexical : ∀ x : LexError, run (unexpected e : Parser α) (ofTokens [] (.failure x)) =
        (.error (.lexical x), ofTokens [] (.failure x)) := fun x => rfl
    rw [he, he', hlexical, hlexical, ← he, ← he']
    exact .unreadable rfl hr hr'

/-- What is found when a token is taken, up to the token's position. -/
def takenShape : Option (α × Token) → Option (α × Token) :=
  Option.map fun r => (r.1, r.2.shape)

theorem parallel_take?_front (hfront : SameFront r r') (accepts : TokenKind → Option α) :
    Parallel r r' takenShape (run (take? accepts) r) (run (take? accepts) r') := by
  cases hfront with
  | ended p p' =>
    rw [run_take?_ended, run_take?_ended]
    exact .stay rfl
  | failed e e' =>
    rw [run_take?_ended, run_take?_ended]
    exact .stay rfl
  | @token t t' hk s s' =>
    cases ha : accepts t.kind with
    | none =>
      rw [run_take?_none s ha, run_take?_none s' (hk ▸ ha)]
      exact .stay rfl
    | some a =>
      cases hs : s.head with
      | error e =>
        rw [run_take?_failure ha hs]
        exact .beyond (.inr ⟨readable_cons t s, e, rfl⟩)
      | ok u =>
        rw [run_take?_some ha ⟨u, hs⟩]
        exact .beyond (.inl (Nat.lt_succ_self s.length))

theorem runAlike_take? (hfront : SameFront r r') (accepts : TokenKind → Option α) :
    RunAlike r r' takenShape (take? accepts) (take? accepts) := by
  refine ⟨receding_take? accepts, ?_⟩
  intro us us' hus
  cases us with
  | nil =>
    rw [List.map_nil] at hus
    rw [List.map_eq_nil_iff.mp hus.symm]
    exact parallel_take?_front hfront accepts
  | cons u us =>
    cases us' with
    | nil => cases hus
    | cons u' us' =>
      have hboth := hus
      rw [List.map_cons, List.map_cons, List.cons.injEq] at hus
      obtain ⟨hu, hus⟩ := hus
      have hk : u.kind = u'.kind := (Token.shape_eq_iff.mp hu).1
      cases ha : accepts u.kind with
      | none =>
        rw [cons_append, cons_append, run_take?_none _ ha, run_take?_none _ (hk ▸ ha)]
        rw [← cons_append, ← cons_append]
        exact .success hboth rfl
      | some a =>
        rcases (hfront.append hus).head with ⟨t, t', ht, ht', -⟩ | ⟨e, e', he, he'⟩
        · rw [cons_append, cons_append, run_take?_some ha ⟨t, ht⟩,
            run_take?_some (hk ▸ ha) ⟨t', ht'⟩]
          exact .success hus (by simp [takenShape, hu])
        · have hhead : (us ++ r).head = .error e := by rw [he]; rfl
          have hhead' : (us' ++ r').head = .error e' := by rw [he']; rfl
          rw [cons_append, cons_append, run_take?_failure ha hhead,
            run_take?_failure (hk ▸ ha) hhead']
          rw [← cons_append, ← cons_append]
          exact .unreadable hboth (eq_nil_of_append_eq_failure he).2
            (eq_nil_of_append_eq_failure he').2

theorem runAlike_expect (hfront : SameFront r r') (kinds : List TokenKind) :
    RunAlike r r' Token.shape (expect kinds) (expect kinds) := by
  refine (runAlike_take? hfront _).bind fun o o' h => ?_
  rcases o with _ | ⟨_, t⟩ <;> rcases o' with _ | ⟨_, t'⟩
  · exact runAlike_unexpected hfront _
  · cases h
  · cases h
  · simp only [takenShape, Option.map_some, Option.some.injEq, Prod.mk.injEq] at h
    exact runAlike_pure h.2

/-! ## Recursion -/

theorem runAlike_fix (es : β → δ) {body body' : (β → Parser α) → β → Parser α}
    (hrec : ∀ b, Receding (fix body b))
    (hbody : ∀ p p', (∀ b b', es b = es b' → RunAlike r r' er (p b) (p' b')) →
      ∀ b b', es b = es b' → RunAlike r r' er (body p b) (body' p' b'))
    (hfront : SameFront r r') {b b' : β} (hb : es b = es b') :
    RunAlike r r' er (fix body b) (fix body' b') := by
  refine ⟨hrec b, ?_⟩
  intro us us' hus
  generalize hn : us.length = n
  induction n using Nat.strongRecOn generalizing b b' us us' with
  | ind n ih =>
    rw [run_fix, run_fix]
    refine (hbody _ _ (fun c c' hc => ⟨fun tracing s => ?_, fun vs vs' hvs => ?_⟩) b b' hb).parallel
      us us' hus
    · split
      · exact hrec c tracing s
      · exact receding_unexpected _ tracing s
    · -- Both calls are guarded in the same way, since equally many tokens are left of each.
      have hlen : us.length = us'.length := by simpa using congrArg List.length hus
      have hlen' : vs.length = vs'.length := by simpa using congrArg List.length hvs
      by_cases hlt : vs.length < us.length
      · have hguard : (vs ++ r).length < (us ++ r).length := by simp only [length_append]; omega
        have hguard' : (vs' ++ r').length < (us' ++ r').length := by
          simp only [length_append]
          omega
        have hpar := ih vs.length (hn ▸ hlt) hc vs vs' hvs rfl
        simpa only [run, hguard, hguard', if_true] using hpar
      · have hguard : ¬(vs ++ r).length < (us ++ r).length := by simp only [length_append]; omega
        have hguard' : ¬(vs' ++ r').length < (us' ++ r').length := by
          simp only [length_append]
          omega
        have hfail : RunAlike r r' er (unexpected (.oneOf [])) (unexpected (.oneOf [])) :=
          runAlike_unexpected hfront _
        have hpar := hfail.parallel vs vs' hvs
        simpa only [run, hguard, hguard', if_false] using hpar

theorem runAlike_iterate {step step' : α → Parser (Option α)} (hfront : SameFront r r')
    (hstep : ∀ a a', er a = er a' → RunAlike r r' (Option.map er) (step a) (step' a'))
    {a a' : α} (ha : er a = er a') :
    RunAlike r r' er (iterate step a) (iterate step' a') := by
  refine runAlike_fix er (receding_iterate fun a => (hstep a a rfl).receding) ?_ hfront ha
  intro p p' hp a a' ha
  refine (hstep a a' ha).bind fun o o' h => ?_
  rcases o with _ | b <;> rcases o' with _ | b'
  · exact runAlike_pure ha
  · cases h
  · cases h
  · exact hp b b' (Option.some.inj h)

end Parser

end WhileLang
