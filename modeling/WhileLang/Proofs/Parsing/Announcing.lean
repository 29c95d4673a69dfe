import WhileLang.Proofs.Language.Adjacency
import WhileLang.Proofs.Parsing.Descent

/-!
# Parsers that announce what fits

A parser that goes by the grammar knows at a syntax error what would have fitted. `Announces` says
of a run that it consumes tokens of a phrase, and that where it stops with a syntax error, each of
the kinds that it expects goes on with the phrase, and the kind that it found is none of them.

There is one exception. After a sign before an operand, the list for operands also has the signs,
and no second sign fits there. `Apt` says for which kinds the list is right then. No other list is
given right after a sign, nor after a minus between operands. No phrase that a rule stands for ends
there (`Derives.unsigned`), and what comes next can fail at once only for want of an operand
(`ExpectsOperand`).

The lemmas prove it for each way of building a parser, on streams that are short enough, so that
a rule which calls itself can be followed by induction.
-/

namespace WhileLang

namespace Grammar

open WhileLang.Parser TokenStream

variable {α β : Type} {φ ψ : Phrase}

/-! ## Beginnings of phrases -/

/-- The phrase can begin with these kinds. -/
def Phrase.Begins (φ : Phrase) (ks : List TokenKind) : Prop := ∃ more, Derives φ (ks ++ more)

/-- The phrase stands for some tokens. -/
class Phrase.Productive (φ : Phrase) : Prop where
  exists_derives : ∃ ks, Derives φ ks

open Phrase (Productive)

instance (k : TokenKind) (ks : List TokenKind) : Productive (.word (k :: ks)) :=
  ⟨[k], .word List.mem_cons_self⟩

instance [hφ : φ.Productive] [hψ : ψ.Productive] : Productive (φ ++ ψ) := by
  obtain ⟨ks, hks⟩ := hφ.exists_derives
  obtain ⟨ls, hls⟩ := hψ.exists_derives
  exact ⟨ks ++ ls, hks.append hls⟩

instance : Productive (.optional φ) := ⟨[], .absent⟩

instance : Productive (.many φ) := ⟨[], .done⟩

/-- What begins a first part begins the whole. -/
theorem Phrase.Begins.first [hψ : ψ.Productive] {ks : List TokenKind} (h : φ.Begins ks) :
    (φ ++ ψ).Begins ks := by
  obtain ⟨more, hmore⟩ := h
  obtain ⟨ls, hls⟩ := hψ.exists_derives
  refine ⟨more ++ ls, ?_⟩
  rw [← List.append_assoc]
  exact hmore.append hls

/-! ## Signs at the end of a phrase -/

/-- The last token is no sign. -/
def Unsigned (ks : List TokenKind) : Prop := ∀ k ∈ ks.getLast?, k ∉ signs

theorem unsigned_nil : Unsigned [] := nofun

theorem unsigned_singleton {k : TokenKind} (h : k ∉ signs) : Unsigned [k] := by
  intro k' hk'
  rwa [← Option.mem_some.mp hk']

/-- What comes after a part decides about the last token, unless it is nothing at all. -/
theorem Unsigned.append {ks ls : List TokenKind} (hks : ls = [] → Unsigned ks)
    (hls : Unsigned ls) : Unsigned (ks ++ ls) := by
  cases hlast : ls.getLast? with
  | none =>
    obtain rfl := List.getLast?_eq_none_iff.mp hlast
    rw [List.append_nil]
    exact hks rfl
  | some k =>
    unfold Unsigned
    rw [List.getLast?_append, hlast]
    exact fun k' hk' => hls k' (hlast ▸ hk')

/-- The phrase names signs at its end. -/
def Phrase.endsInSign : Phrase → Bool
  | word ks => ks.any (· ∈ signs)
  | rule _ => false
  | sequence p q => q.endsInSign || q.nullable && p.endsInSign
  | choice p q => p.endsInSign || q.endsInSign
  | optional p | many p => p.endsInSign

theorem endsInSign_production (name : RuleName) : (production name).endsInSign = false := by
  cases name <;> rfl

theorem Derives.unsigned {ks : List TokenKind} (h : Derives φ ks) (hφ : φ.endsInSign = false) :
    Unsigned ks := by
  induction h with
  | @word kinds k hk =>
    intro k' hk' hsign
    obtain rfl := Option.mem_some.mp hk'
    exact List.any_eq_false.mp hφ k hk (decide_eq_true hsign)
  | rule _ ih => exact ih (endsInSign_production _)
  | @sequence p q ks ls _ hq ihp ihq =>
    obtain ⟨hφq, hφp⟩ := Bool.or_eq_false_iff.mp hφ
    refine .append (fun hnil => ihp ?_) (ihq hφq)
    rcases Bool.and_eq_false_iff.mp hφp with hnull | hφp
    · exact absurd hnil (hq.ne_nil hnull)
    · exact hφp
  | left _ ih => exact ih (Bool.or_eq_false_iff.mp hφ).1
  | right _ ih => exact ih (Bool.or_eq_false_iff.mp hφ).2
  | absent | done => exact unsigned_nil
  | present _ ih => exact ih hφ
  | more _ _ ih ihs => exact .append (fun _ => ih hφ) (ihs hφ)

/-! ## What is expected -/

/-- After the kinds `ks` the kind `k` was found where something else was expected. -/
inductive Apt (φ : Phrase) (ks : List TokenKind) (e : Expected) (k : TokenKind) : Prop where
  | exact (hk : k ∉ e.kinds) (h : ∀ k' ∈ e.kinds, φ.Begins (ks ++ [k']))
  /-- The last kind is a sign in the place of an operand. -/
  | signed {js : List TokenKind} {s : TokenKind} (hks : ks = js ++ [s]) (hs : s ∈ signs)
      (hname : φ.Begins (js ++ [.identifier])) (hk : k ∈ e.kinds → k ∈ signs)
      (h : ∀ k' ∈ e.kinds, k' ∉ signs → φ.Begins (ks ++ [k']))

/-- What is apt inside a phrase is apt in a greater one. -/
theorem Apt.lift {ks : List TokenKind} {e : Expected} {k : TokenKind} (h : Apt φ ks e k)
    (pre : List TokenKind) (hlift : ∀ ls, φ.Begins ls → ψ.Begins (pre ++ ls)) :
    Apt ψ (pre ++ ks) e k := by
  cases h with
  | exact hk h =>
    refine .exact hk fun k' hk' => ?_
    rw [List.append_assoc]
    exact hlift _ (h k' hk')
  | @signed js s hks hs hname hk h =>
    have hsigned : pre ++ ks = (pre ++ js) ++ [s] := by rw [hks, List.append_assoc]
    refine .signed hsigned hs ?_ hk ?_
    · rw [List.append_assoc]
      exact hlift _ hname
    · intro k' hk' hsign
      rw [List.append_assoc]
      exact hlift _ (h k' hk' hsign)

/-- How a run may end. -/
inductive Announces (φ : Phrase) (s : TokenStream) :
    Except ParseError α × TokenStream → Prop where
  | success {us : List Token} {a : α} {rest : TokenStream} (hs : s = us ++ rest)
      (hrest : rest.Readable) (h : Derives φ (us.map Token.kind)) : Announces φ s (.ok a, rest)
  | mismatch {us : List Token} {t : Token} {e : Expected} {rest : TokenStream}
      (hs : s = us ++ rest) (ht : rest.head = .ok t) (h : Apt φ (us.map Token.kind) e t.kind)
      (hsign : Unsigned (us.map Token.kind) ∨ e = .operand) :
      Announces φ s (.error (.unexpected e t.kind t.position), rest)
  | unreadable {e : LexError} {rest : TokenStream} : Announces φ s (.error (.lexical e), rest)

/-- If a run has failed at a token and consumed nothing, it is for want of an operand. -/
def ExpectsOperand (s : TokenStream) (o : Except ParseError α × TokenStream) : Prop :=
  ∀ e k p, o = (.error (.unexpected e k p), s) → e = .operand

namespace Announces

variable {s : TokenStream}

/-- A run inside a phrase, after tokens of it, is a run of the phrase. If the last of them is a
sign, it may fail at once only for want of an operand. -/
theorem lift {s' : TokenStream} {o : Except ParseError α × TokenStream} (h : Announces φ s' o)
    (us : List Token) (hs : s = us ++ s')
    (hsign : Unsigned (us.map Token.kind) ∨ ExpectsOperand s' o)
    (hlift : ∀ ks, Derives φ ks → Derives ψ (us.map Token.kind ++ ks)) : Announces ψ s o := by
  have hbegins : ∀ ks, φ.Begins ks → ψ.Begins (us.map Token.kind ++ ks) := by
    rintro ks ⟨more, hmore⟩
    refine ⟨more, ?_⟩
    rw [List.append_assoc]
    exact hlift _ hmore
  cases h with
  | @success vs _ rest hs' hrest h =>
    have hwhole : s = (us ++ vs) ++ rest := by rw [hs, hs', append_append]
    refine .success hwhole hrest ?_
    rw [List.map_append]
    exact hlift _ h
  | @mismatch vs t e rest hs' ht h hlast =>
    have hwhole : s = (us ++ vs) ++ rest := by rw [hs, hs', append_append]
    refine .mismatch hwhole ht ?_ ?_
    · rw [List.map_append]
      exact h.lift _ hbegins
    · cases vs with
      | nil =>
        obtain rfl : s' = rest := hs'
        rw [List.append_nil]
        exact hsign.imp_right fun hexpects => hexpects _ _ _ rfl
      | cons v vs =>
        rw [List.map_append]
        exact hlast.imp_left (.append nofun)
  | unreadable => exact .unreadable

theorem mono {o : Except ParseError α × TokenStream} (h : Announces φ s o)
    (hmono : ∀ ks, Derives φ ks → Derives ψ ks) : Announces ψ s o :=
  h.lift [] (nil_append s).symm (.inl unsigned_nil) hmono

theorem left {o : Except ParseError α × TokenStream} (h : Announces φ s o) :
    Announces (φ <|> ψ) s o := h.mono fun _ => .orLeft

theorem right {o : Except ParseError α × TokenStream} (h : Announces ψ s o) :
    Announces (φ <|> ψ) s o := h.mono fun _ => .orRight

theorem present {o : Except ParseError α × TokenStream} (h : Announces φ s o) :
    Announces (.optional φ) s o := h.mono fun _ => .present

theorem assoc {χ : Phrase} {o : Except ParseError α × TokenStream}
    (h : Announces (φ ++ (ψ ++ χ)) s o) : Announces (φ ++ ψ ++ χ) s o := by
  refine h.mono fun ks hks => ?_
  cases hks with
  | sequence hp hqr =>
    cases hqr with
    | sequence hq hr =>
      rw [← List.append_assoc]
      exact (hp.append hq).append hr

/-- One phrase after the other. The second needs to be announced only from where the first ends. -/
theorem bind {p : Parser α} {f : α → Parser β} [ψ.Productive] (hφ : φ.endsInSign = false)
    (hp : Announces φ s (run p s))
    (hf : ∀ (us : List Token) a rest, run p s = (.ok a, rest) → s = us ++ rest →
      Derives φ (us.map Token.kind) → rest.Readable → Announces ψ rest (run (f a) rest)) :
    Announces (φ ++ ψ) s (run (p >>= f) s) := by
  rw [run_bind]
  generalize hrun : run p s = o at hp
  cases hp with
  | @success us a rest hs hrest h =>
    exact (hf us a rest hrun hs h hrest).lift us hs (.inl (h.unsigned hφ)) fun ks hks =>
      h.append hks
  | mismatch hs ht h hsign => exact .mismatch hs ht (h.lift [] fun _ => .first) hsign
  | unreadable => exact .unreadable

/-- Nothing is read after the phrase. -/
theorem finish {s' : TokenStream} {p : Parser α} (h : Announces φ s (run p s')) (g : α → β) :
    Announces φ s (run (p >>= fun a => pure (g a)) s') := by
  rw [run_bind]
  generalize run p s' = o at h
  cases h with
  | success hs hrest h => exact .success hs hrest h
  | mismatch hs ht h hsign => exact .mismatch hs ht h hsign
  | unreadable => exact .unreadable

theorem inRule {name : RuleName} {p : Parser α} (h : Announces (production name) s (run p s)) :
    Announces (.rule name) s (run (p.inRule name) s) := by
  rw [run_inRule]
  exact h.mono fun _ => .rule

/-- Where nothing is read, the rest of a phrase may be missing. -/
theorem stay (hs : s.Readable) (a : α) (h : Derives φ []) : Announces φ s (.ok a, s) :=
  .success (nil_append s).symm hs h

/-- What is expected begins the phrase, and the current token is none of it. -/
theorem unexpected {t : Token} {e : Expected} (ht : s.head = .ok t) (hk : t.kind ∉ e.kinds)
    (h : ∀ k ∈ e.kinds, φ.Begins [k]) : Announces φ s (run (unexpected e : Parser α) s) := by
  rw [run_unexpected ht]
  exact .mismatch (nil_append s).symm ht (.exact hk h) (.inl unsigned_nil)

end Announces

namespace ExpectsOperand

variable {s : TokenStream} {p : Parser α}

/-- A parser that begins later never gets back. -/
theorem of_receding {s' : TokenStream} (hp : Receding p) (h : s'.length < s.length) :
    ExpectsOperand s (run p s') := by
  intro e k q hrun
  have hle : (run p s').2.length ≤ s'.length := hp .full s'
  rw [hrun] at hle
  exact absurd hle (Nat.not_le_of_lt h)

theorem error {e : ParseError} {rest : TokenStream}
    (h : ExpectsOperand s ((.error e, rest) : Except ParseError α × TokenStream)) :
    ExpectsOperand s ((.error e, rest) : Except ParseError β × TokenStream) := by
  intro e' k q ho
  obtain ⟨he, rfl⟩ := Prod.mk.inj ho
  obtain rfl := Except.error.inj he
  exact h _ _ _ rfl

/-- What comes after a success does not matter if something has been consumed. -/
theorem bind (h : ExpectsOperand s (run p s))
    (hshorter : ∀ a rest, run p s = (.ok a, rest) → rest.length < s.length) {f : α → Parser β}
    (hf : ∀ a, Receding (f a)) : ExpectsOperand s (run (p >>= f) s) := by
  rw [run_bind]
  generalize run p s = o at h hshorter
  obtain ⟨_ | a, rest⟩ := o
  · exact h.error
  · exact .of_receding (hf a) (hshorter a rest rfl)

theorem finish (h : ExpectsOperand s (run p s)) (g : α → β) :
    ExpectsOperand s (run (p >>= fun a => pure (g a)) s) := by
  rw [run_bind]
  generalize run p s = o at h
  obtain ⟨_ | _, rest⟩ := o
  · exact h.error
  · exact nofun

end ExpectsOperand

/-! ## Looking at tokens -/

/-- What `take?` does: the current token is not accepted, or it is taken, or the one after it cannot
be read. -/
theorem run_take?_cases (accepts : TokenKind → Option α) (hend : accepts .endOfText = none)
    (s : TokenStream) :
    (run (take? accepts) s = (.ok none, s) ∧ ∀ k, s.ahead? = some k → accepts k = none) ∨
      (∃ a t s', s = cons t s' ∧ accepts t.kind = some a ∧ s'.Readable ∧
        run (take? accepts) s = (.ok (some (a, t)), s')) ∨
      ∃ e, run (take? accepts) s = (.error (.lexical e), s) := by
  rcases s.eq_ended_or_cons with he | ⟨t, s', rfl⟩
  · refine .inl ⟨by rw [he]; rfl, ?_⟩
    intro k hk
    rw [he] at hk
    generalize s.ending = ending at hk
    cases ending with
    | endOfText p => exact Option.some.inj hk ▸ hend
    | failure e => cases hk
  · cases ha : accepts t.kind with
    | none => exact .inl ⟨run_take?_none s' ha, fun k hk => Option.some.inj hk ▸ ha⟩
    | some a =>
      right
      cases hhead : s'.head with
      | error e => exact .inr ⟨e, run_take?_failure ha hhead⟩
      | ok t' => exact .inl ⟨a, t, s', rfl, ha, ⟨t', hhead⟩, run_take?_some ha ⟨t', hhead⟩⟩

/-- What `expect` does: the current token is none of these kinds, or it is taken, or the one after
it cannot be read. -/
theorem run_expect_cases {kinds : List TokenKind} (hend : .endOfText ∉ kinds) {s : TokenStream}
    {t : Token} (ht : s.head = .ok t) :
    (t.kind ∉ kinds ∧
        run (expect kinds) s = (.error (.unexpected (.oneOf kinds) t.kind t.position), s)) ∨
      (t.kind ∈ kinds ∧
        ∃ s', s = cons t s' ∧ s'.Readable ∧ run (expect kinds) s = (.ok t, s')) ∨
      ∃ e, run (expect kinds) s = (.error (.lexical e), s) := by
  unfold expect
  rcases run_take?_cases (fun k => if k ∈ kinds then some () else none)
    (if_neg hend) s with ⟨hrun, hnone⟩ | ⟨a, u, s', rfl, ha, hs', hrun⟩ | ⟨e, hrun⟩
  · have hk : t.kind ∉ kinds := by
      intro hmem
      have hnot := hnone t.kind (ahead?_of_head ht)
      rw [if_pos hmem] at hnot
      cases hnot
    rw [run_bind_ok hrun]
    exact .inl ⟨hk, run_unexpected ht _⟩
  · obtain rfl : u = t := Except.ok.inj ht
    rw [run_bind_ok hrun]
    exact .inr (.inl ⟨by simpa using ha, s', rfl, hs', rfl⟩)
  · rw [run_bind, hrun]
    exact .inr (.inr ⟨e, rfl⟩)

/-- A token that is looked for where it is, is found. -/
theorem expectsOperand_expect {kinds : List TokenKind} (hend : .endOfText ∉ kinds)
    {s : TokenStream} {t : Token} (ht : s.head = .ok t) (hk : t.kind ∈ kinds) :
    ExpectsOperand s (run (expect kinds) s) := by
  rcases run_expect_cases hend ht with ⟨hnot, -⟩ | ⟨-, s', -, -, hrun⟩ | ⟨e, hrun⟩
  · exact absurd hk hnot
  · rw [hrun]
    exact nofun
  · rw [hrun]
    exact nofun

theorem announces_expect {kinds : List TokenKind} (hend : .endOfText ∉ kinds) {s : TokenStream}
    (hs : s.Readable) : Announces (.word kinds) s (run (expect kinds) s) := by
  obtain ⟨t, ht⟩ := hs
  rcases run_expect_cases hend ht with ⟨hk, hrun⟩ | ⟨hk, s', rfl, hs', hrun⟩ | ⟨e, hrun⟩
  · rw [hrun, ← run_unexpected ht]
    exact .unexpected ht hk fun k hk => ⟨[], .word hk⟩
  · have hsplit : cons t s' = [t] ++ s' := rfl
    rw [hrun]
    exact .success hsplit hs' (.word hk)
  · rw [hrun]
    exact .unreadable

/-! ## Repetitions -/

/-- What a step of a loop does: it has nothing to add and reads nothing, or it reads a phrase. -/
inductive Attempts (φ : Phrase) (s : TokenStream) :
    Except ParseError (Option α) × TokenStream → Prop where
  | skipped : Attempts φ s (.ok none, s)
  | made {o : Except ParseError α × TokenStream} (h : Announces φ s o) :
      Attempts φ s (o.1.map some, o.2)

theorem Announces.attempts {s s' : TokenStream} {p : Parser α} (h : Announces φ s (run p s'))
    (g : α → β) : Attempts φ s (run (p >>= fun a => pure (some (g a))) s') := by
  have hmade := Attempts.made (h.finish g)
  rw [run_bind] at hmade ⊢
  generalize run p s' = o at hmade ⊢
  obtain ⟨_ | _, rest⟩ := o <;> exact hmade

/-- A token that is taken begins the phrase, and nothing is added without it. If it can be a sign,
an operand is expected after it. -/
theorem attempts_take? {γ : Type} {accepts : TokenKind → Option α} {kinds : List TokenKind}
    (hend : accepts .endOfText = none) (haccepts : ∀ k a, accepts k = some a → k ∈ kinds)
    {f : Option (α × Token) → Parser (Option β)} {q : Parser γ}
    {g : α × Token → γ → β} {s : TokenStream} (hnone : f none = pure none)
    (hsome : ∀ r, f (some r) = q >>= fun c => pure (some (g r c)))
    (hsign : (∀ k ∈ kinds, k ∉ signs) ∨
      ∀ s' : TokenStream, s'.length ≤ s.length → s'.Readable → ExpectsOperand s' (run q s'))
    (hq : ∀ s' : TokenStream, s'.length ≤ s.length → s'.Readable → Announces φ s' (run q s')) :
    Attempts (.word kinds ++ φ) s (run (take? accepts >>= f) s) := by
  rcases run_take?_cases accepts hend s with ⟨hrun, -⟩ | ⟨a, t, s', rfl, ha, hs', hrun⟩ | ⟨e, hrun⟩
  · rw [run_bind_ok hrun, hnone]
    exact .skipped
  · rw [run_bind_ok hrun, hsome]
    have hlater := hq s' (Nat.le_succ s'.length) hs'
    have hfirst : Unsigned [t.kind] ∨ ExpectsOperand s' (run q s') :=
      hsign.imp (fun h => unsigned_singleton (h _ (haccepts _ _ ha)))
        fun h => h s' (Nat.le_succ s'.length) hs'
    have hwhole : Announces (.word kinds ++ φ) (cons t s') (run q s') :=
      hlater.lift [t] rfl hfirst fun ks hks => (Derives.word (haccepts _ _ ha)).append hks
    exact hwhole.attempts _
  · rw [run_bind, hrun]
    have hunreadable : Announces (.word kinds ++ φ) s ((.error (.lexical e) : Except _ β), s) :=
      .unreadable
    exact .made hunreadable

/-- A token that is taken begins an optional part, if nothing is read without it. -/
theorem announces_optional {accepts : TokenKind → Option α} {kinds : List TokenKind}
    (hend : accepts .endOfText = none) (haccepts : ∀ k a, accepts k = some a → k ∈ kinds)
    (hkinds : ∀ k ∈ kinds, k ∉ signs) {f : Option (α × Token) → Parser β} {b : β}
    {s : TokenStream} (hs : s.Readable) (hnone : f none = pure b)
    (hsome : ∀ r (s' : TokenStream), s'.length ≤ s.length → s'.Readable →
      Announces φ s' (run (f (some r)) s')) :
    Announces (.optional (.word kinds ++ φ)) s (run (take? accepts >>= f) s) := by
  rcases run_take?_cases accepts hend s with ⟨hrun, -⟩ | ⟨a, t, s', rfl, ha, hs', hrun⟩ | ⟨e, hrun⟩
  · rw [run_bind_ok hrun, hnone]
    exact .stay hs b .absent
  · rw [run_bind_ok hrun]
    have hlater := hsome (a, t) s' (Nat.le_succ s'.length) hs'
    have hfirst := unsigned_singleton (hkinds _ (haccepts _ _ ha))
    refine hlater.lift [t] rfl (.inl hfirst) fun ks hks => .present ?_
    exact (Derives.word (haccepts _ _ ha)).append hks
  · rw [run_bind, hrun]
    exact .unreadable

theorem run_iterate_error {step : α → Parser (Option α)} {a : α} {s rest : TokenStream}
    {e : ParseError} (h : run (step a) s = (.error e, rest)) :
    run (iterate step a) s = (.error e, rest) := by
  unfold iterate
  rw [run_fix, run_bind, h]

/-- A loop announces a repetition if a round, which consumes a token, announces what is repeated. -/
theorem announces_iterate {step : α → Parser (Option α)} (hφ : φ.nullable = false)
    (hends : φ.endsInSign = false) {n : Nat}
    (hstep : ∀ a s, s.length < n → s.Readable → Attempts φ s (run (step a) s)) (a : α)
    {s : TokenStream} (hn : s.length < n) (hs : s.Readable) :
    Announces (.many φ) s (run (iterate step a) s) := by
  generalize hm : s.length = m
  induction m using Nat.strongRecOn generalizing a s with
  | ind m ih =>
    have hattempt := hstep a s hn hs
    generalize hrun : run (step a) s = o at hattempt
    cases hattempt with
    | skipped =>
      rw [run_iterate_none hrun]
      exact .stay hs a .done
    | made h =>
      cases h with
      | unreadable =>
        rw [run_iterate_error hrun]
        exact .unreadable
      | mismatch hsplit ht h hsign =>
        rw [run_iterate_error hrun]
        refine .mismatch hsplit ht (h.lift [] ?_) hsign
        rintro ls ⟨more, hmore⟩
        exact ⟨more, by simpa using hmore.more .done⟩
      | @success us a' rest hsplit hrest h =>
        have hpos := h.length_pos hφ
        have hlt : rest.length < s.length := by
          rw [hsplit, length_append]
          omega
        rw [run_iterate_some hrun hlt]
        have hlater := ih rest.length (hm ▸ hlt) a' (Nat.lt_trans hlt hn) hrest rfl
        exact hlater.lift us hsplit (.inl (h.unsigned hends)) fun ks hks => h.more hks

/-! ## Short streams -/

/-- On streams of fewer than `n` tokens the parser announces the phrase. -/
def AnnouncesBelow (n : Nat) (p : Parser α) (φ : Phrase) : Prop :=
  ∀ s : TokenStream, s.length < n → s.Readable → Announces φ s (run p s)

namespace AnnouncesBelow

variable {n : Nat} {p : Parser α} {f : α → Parser β}

theorem bind [ψ.Productive] (hp : AnnouncesBelow n p φ) (hends : φ.endsInSign = false)
    (hf : ∀ a, AnnouncesBelow n (f a) ψ) : AnnouncesBelow n (p >>= f) (φ ++ ψ) := by
  intro s hlt hs
  refine .bind hends (hp s hlt hs) fun us a rest _ hsplit _ hrest => hf a rest ?_ hrest
  rw [hsplit, length_append] at hlt
  omega

/-- After a phrase that consumes a token, shorter streams are enough. -/
theorem bind_consuming [ψ.Productive] (hp : AnnouncesBelow (n + 1) p φ)
    (hφ : φ.nullable = false) (hends : φ.endsInSign = false)
    (hf : ∀ a, AnnouncesBelow n (f a) ψ) : AnnouncesBelow (n + 1) (p >>= f) (φ ++ ψ) := by
  intro s hlt hs
  refine .bind hends (hp s hlt hs) fun us a rest _ hsplit h hrest => hf a rest ?_ hrest
  have hpos := h.length_pos hφ
  rw [hsplit, length_append] at hlt
  omega

theorem finish (hp : AnnouncesBelow n p φ) (g : α → β) :
    AnnouncesBelow n (p >>= fun a => pure (g a)) φ :=
  fun s hlt hs => (hp s hlt hs).finish g

theorem assoc {χ : Phrase} (hp : AnnouncesBelow n p (φ ++ (ψ ++ χ))) :
    AnnouncesBelow n p (φ ++ ψ ++ χ) :=
  fun s hlt hs => (hp s hlt hs).assoc

/-- A parser that looks ahead does what the branch for the current token does. -/
theorem peek_bind {f : TokenKind → Parser α}
    (hf : ∀ k s, s.length < n → s.ahead? = some k → Announces φ s (run (f k) s)) :
    AnnouncesBelow n (peek >>= f) φ := by
  intro s hlt hs
  obtain ⟨t, ht⟩ := hs
  have hahead := ahead?_of_head ht
  rw [run_bind_ok (run_peek hahead)]
  exact hf t.kind s hlt hahead

theorem inRule {name : RuleName} (hp : AnnouncesBelow n p (production name)) :
    AnnouncesBelow n (p.inRule name) (.rule name) :=
  fun s hlt hs => (hp s hlt hs).inRule

end AnnouncesBelow

theorem announcesBelow_expect {kinds : List TokenKind} (hend : .endOfText ∉ kinds) (n : Nat) :
    AnnouncesBelow n (expect kinds) (.word kinds) :=
  fun _ _ hs => announces_expect hend hs

end Grammar

end WhileLang
