import TapeCompiler.Proofs.TextLines

/-!
# Any mix of calls of a cursor

A cursor may be asked for tokens in two ways, and for all tokens that are left, in any
order. Whatever was asked before, it stands at a place in one list of tokens: those of the
instruction characters, each on the line that the newlines before it lead to, and behind
them the end of the text, again and again. `Progress` keeps count of the tokens that were
taken and of whether `next?` has given the end, and knows nothing of the text.
`Cursor.Reached` ties a cursor to its progress and is kept by every call, and
`Cursor.answers_after` reads the answers off the progress.
-/

namespace TapeCompiler

/-- What a cursor can be asked for. -/
inductive Inquiry where
  /-- The next token, or the end of the text. -/
  | advance
  /-- The next token, or the end of the text, but that only once. -/
  | next
  /-- All that `next` would still give. -/
  | remaining
deriving DecidableEq, Repr, Inhabited

/-- The cursor after an inquiry. -/
def Cursor.ask (c : Cursor) : Inquiry → Cursor
  | .advance => c.advance.2
  | .next => (c.next?.map Prod.snd).getD c
  | .remaining => c

/-- Some tokens, and behind them the same one again and again. -/
def tokenAt (tokens : List Token) (last : Token) (i : Nat) : Token :=
  tokens[i]?.getD last

/-- How far a list of tokens was read: how many of them were taken, where the end counts as
often as it was taken, and whether `next` has given the end. -/
structure Progress where
  taken : Nat := 0
  ended : Bool := false
deriving DecidableEq, Repr, Inhabited

/-- The line of the token that was taken last, which is the first line if there is none. -/
def Progress.line (tokens : List Token) (last : Token) (progress : Progress) : Nat :=
  match progress.taken with
  | 0 => 1
  | i + 1 => (tokenAt tokens last i).line

/-- The progress after an inquiry, in a list of `count` tokens. -/
def Progress.ask (count : Nat) (progress : Progress) : Inquiry → Progress
  | .advance => { progress with taken := progress.taken + 1 }
  | .next =>
      if progress.ended then progress else ⟨progress.taken + 1, count ≤ progress.taken⟩
  | .remaining => progress

theorem tokenAt_of_drop_nil {tokens : List Token} {i : Nat} (h : tokens.drop i = [])
    (last : Token) : tokenAt tokens last i = last := by
  rw [tokenAt, ← List.head?_drop, h]
  rfl

theorem tokenAt_of_drop_cons {tokens rest : List Token} {t : Token} {i : Nat}
    (h : tokens.drop i = t :: rest) (last : Token) : tokenAt tokens last i = t := by
  rw [tokenAt, ← List.head?_drop, h]
  rfl

/-- Only the token behind the others says that the text has ended. -/
theorem kind_tokenAt {tokens : List Token} (hkinds : ∀ t ∈ tokens, t.kind ≠ .endOfText)
    {last : Token} (hlast : last.kind = .endOfText) (i : Nat) :
    ((tokenAt tokens last i).kind == .endOfText) = decide (tokens.length ≤ i) := by
  cases hrest : tokens.drop i with
  | nil =>
      have hlength : tokens.length ≤ i := List.drop_eq_nil_iff.mp hrest
      rw [tokenAt_of_drop_nil hrest, hlast, decide_eq_true hlength]
      rfl
  | cons t rest =>
      have hlength : ¬tokens.length ≤ i := fun hle => by
        rw [List.drop_eq_nil_iff.mpr hle] at hrest
        cases hrest
      have ht : t ∈ tokens := List.mem_of_mem_drop (hrest ▸ List.mem_cons_self)
      rw [tokenAt_of_drop_cons hrest, decide_eq_false hlength]
      exact beq_eq_false_iff_ne.mpr (hkinds t ht)

namespace Cursor

theorem firstToken_of_tokensOf_nil {line : Nat} {text : List Char}
    (h : tokensOf line text = []) :
    firstToken line text = (⟨.endOfText, line + text.count '\n'⟩, []) := by
  induction text generalizing line with
  | nil => rfl
  | cons c text ih =>
      cases hc : Symbol.ofChar? c with
      | none =>
          rw [tokensOf_of_none hc] at h
          rw [firstToken_cons, hc, ← lineAfter_add_count]
          exact ih h
      | some s =>
          rw [tokensOf_of_some hc] at h
          cases h

theorem firstToken_of_tokensOf_cons {line : Nat} {text : List Char} {t : Token}
    {tokens : List Token} (h : tokensOf line text = t :: tokens) :
    ∃ rest, firstToken line text = (t, rest) ∧ tokensOf t.line rest = tokens ∧
      t.line + rest.count '\n' = line + text.count '\n' := by
  induction text generalizing line with
  | nil => cases h
  | cons c text ih =>
      cases hc : Symbol.ofChar? c with
      | none =>
          rw [tokensOf_of_none hc] at h
          rw [firstToken_cons, hc, ← lineAfter_add_count]
          exact ih h
      | some s =>
          have hline := lineAfter_add_count line c text
          rw [lineAfter_of_some hc] at hline
          rw [tokensOf_of_some hc] at h
          obtain ⟨rfl, rfl⟩ := List.cons_eq_cons.mp h
          rw [firstToken_cons, hc]
          exact ⟨text, rfl, rfl, hline⟩

/-- The cursor has come as far as `progress` in a list of tokens with `last` behind it. -/
structure Reached (tokens : List Token) (last : Token) (c : Cursor) (progress : Progress) :
    Prop where
  tokens_eq : tokensOf c.line c.rest = tokens.drop progress.taken
  last_eq : ⟨.endOfText, c.line + c.rest.count '\n'⟩ = last
  line_eq : c.line = progress.line tokens last
  ended_eq : c.ended = progress.ended

namespace Reached

variable {tokens : List Token} {last : Token} {c : Cursor} {progress : Progress}

theorem remaining (h : Reached tokens last c progress) :
    c.remaining = if progress.ended then [] else tokens.drop progress.taken ++ [last] := by
  rw [Cursor.remaining, h.ended_eq, toList_collect_eq_append, h.tokens_eq, h.last_eq]

/-- The next token is the one that comes next in the list. -/
theorem advance (h : Reached tokens last c progress) :
    c.advance.1 = tokenAt tokens last progress.taken ∧
      Reached tokens last c.advance.2 { progress with taken := progress.taken + 1 } := by
  have htokens := h.tokens_eq
  have hlast := h.last_eq
  have htail : tokens.drop (progress.taken + 1) = (tokens.drop progress.taken).tail :=
    List.tail_drop.symm
  rw [Cursor.advance]
  cases hrest : tokens.drop progress.taken with
  | nil =>
      have htoken := tokenAt_of_drop_nil hrest last
      rw [hrest] at htokens htail
      rw [firstToken_of_tokensOf_nil htokens, hlast, htoken]
      subst hlast
      exact ⟨rfl, htail.symm, rfl, congrArg Token.line htoken.symm, h.ended_eq⟩
  | cons t rest =>
      have htoken := tokenAt_of_drop_cons hrest last
      rw [hrest] at htokens htail
      obtain ⟨text, hfirst, hafter, hcount⟩ := firstToken_of_tokensOf_cons htokens
      rw [hfirst, htoken]
      refine ⟨rfl, hafter.trans htail.symm, ?_, congrArg Token.line htoken.symm, h.ended_eq⟩
      rw [← hlast, ← hcount]

theorem next?_eq (h : Reached tokens last c progress)
    (hkinds : ∀ t ∈ tokens, t.kind ≠ .endOfText) :
    c.next? = if progress.ended then none else
      some (tokenAt tokens last progress.taken,
        { c.advance.2 with ended := decide (tokens.length ≤ progress.taken) }) := by
  have hlast : last.kind = .endOfText := congrArg Token.kind h.last_eq.symm
  simp only [next?, h.ended_eq, h.advance.1, kind_tokenAt hkinds hlast]

/-- Whatever is asked, the cursor goes on in the list. -/
theorem ask (h : Reached tokens last c progress)
    (hkinds : ∀ t ∈ tokens, t.kind ≠ .endOfText) (inquiry : Inquiry) :
    Reached tokens last (c.ask inquiry) (progress.ask tokens.length inquiry) := by
  cases inquiry with
  | advance => exact h.advance.2
  | next =>
      rw [Cursor.ask, Progress.ask, h.next?_eq hkinds]
      cases hended : progress.ended with
      | true => exact h
      | false =>
          obtain ⟨htokens, hlast, hline, -⟩ := h.advance.2
          exact ⟨htokens, hlast, hline, rfl⟩
  | remaining => exact h

/-- What is so after one inquiry is so after any number of them. -/
theorem after (h : Reached tokens last c progress)
    (hkinds : ∀ t ∈ tokens, t.kind ≠ .endOfText) (inquiries : List Inquiry) :
    Reached tokens last (inquiries.foldl Cursor.ask c)
      (inquiries.foldl (Progress.ask tokens.length) progress) := by
  induction inquiries generalizing c progress with
  | nil => exact h
  | cons inquiry inquiries ih => exact ih (h.ask hkinds inquiry)

end Reached

/-- Of a single token that was taken by `advance`, the end is still given once by `next`. -/
example : [.advance, .next, .next, .advance].foldl (Progress.ask 1) {} = ⟨3, true⟩ := by
  decide

end Cursor

end TapeCompiler
