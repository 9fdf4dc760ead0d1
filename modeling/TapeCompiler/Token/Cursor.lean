import TapeCompiler.Token

/-!
# A cursor over a source text

A `Cursor` reads tokens off a text. There are two ways to pull: `advance` always gives
a token, the end of the text again and again, while `next?` gives the end of the text
once and stops after it. `remaining` lists what `next?` would still give, and
`remaining_eq_next?` is the bridge between the two. `scan` lists the tokens of a whole
text.
-/

namespace TapeCompiler

/-- A place in a source text: the characters after it, its line, and whether `next?`
has already given the end of the text. -/
structure Cursor where
  rest : List Char
  line : Nat := 1
  ended : Bool := false
deriving DecidableEq, Repr, Inhabited

namespace Cursor

/-- The line after a character that began on line `line`. -/
def lineAfter (line : Nat) (c : Char) : Nat :=
  if c = '\n' then line + 1 else line

/-- The first token of a text that starts on line `line`, and the text after it. -/
def firstToken (line : Nat) : List Char → Token × List Char
  | [] => (⟨.endOfText, line⟩, [])
  | c :: rest =>
      match Symbol.ofChar? c with
      | some s => (⟨.symbol s, line⟩, rest)
      | none => firstToken (lineAfter line c) rest

/-- All tokens of a text that starts on line `line`, put after those of `found`. The
end of the text is the last of them. -/
def collect (line : Nat) (found : Array Token) : List Char → Array Token
  | [] => found.push ⟨.endOfText, line⟩
  | c :: rest =>
      match Symbol.ofChar? c with
      | some s => collect line (found.push ⟨.symbol s, line⟩) rest
      | none => collect (lineAfter line c) found rest

def ofString (source : String) : Cursor :=
  ⟨source.toList, 1, false⟩

/-- The next token. At the end of the text this is the end, however often it is
asked for. -/
def advance (c : Cursor) : Token × Cursor :=
  let found := firstToken c.line c.rest
  (found.1, { c with rest := found.2, line := found.1.line })

/-- The next token, or `none` once the end of the text was given here. -/
def next? (c : Cursor) : Option (Token × Cursor) :=
  if c.ended then none
  else
    let found := c.advance
    some (found.1, { found.2 with ended := found.1.kind == .endOfText })

/-- The tokens that `next?` still has to give. -/
def remaining (c : Cursor) : List Token :=
  if c.ended then [] else (collect c.line #[] c.rest).toList

theorem firstToken_cons (line : Nat) (c : Char) (rest : List Char) :
    firstToken line (c :: rest) =
      match Symbol.ofChar? c with
      | some s => (⟨.symbol s, line⟩, rest)
      | none => firstToken (lineAfter line c) rest := rfl

theorem collect_cons (line : Nat) (found : Array Token) (c : Char) (rest : List Char) :
    collect line found (c :: rest) =
      match Symbol.ofChar? c with
      | some s => collect line (found.push ⟨.symbol s, line⟩) rest
      | none => collect (lineAfter line c) found rest := rfl

theorem toList_collect (line : Nat) (found : Array Token) (text : List Char) :
    (collect line found text).toList =
      found.toList ++ (collect line #[] text).toList := by
  induction text generalizing line found with
  | nil => simp [collect]
  | cons c rest ih =>
      simp only [collect_cons]
      cases Symbol.ofChar? c with
      | none => exact ih _ _
      | some s =>
          simp only
          rw [ih, ih _ (#[].push _)]
          simp

/-- The first of the tokens of a text is its first token, and the others are those of
the text after it. -/
theorem toList_collect_eq (line : Nat) (text : List Char) :
    (collect line #[] text).toList =
      (firstToken line text).1 ::
        if (firstToken line text).1.kind = .endOfText then []
        else (collect (firstToken line text).1.line #[] (firstToken line text).2).toList := by
  induction text generalizing line with
  | nil => rfl
  | cons c rest ih =>
      cases h : Symbol.ofChar? c with
      | none => simpa [collect_cons, firstToken_cons, h] using ih _
      | some s =>
          simp only [collect_cons, firstToken_cons, h]
          rw [toList_collect]
          simp

theorem remaining_eq_next? (c : Cursor) :
    c.remaining =
      match c.next? with
      | none => []
      | some (t, c') => t :: c'.remaining := by
  unfold remaining next?
  cases c.ended with
  | true => simp
  | false =>
      simp only [Bool.false_eq_true, if_false, advance]
      rw [toList_collect_eq]
      simp

end Cursor

/-- The tokens of a source text, the end of the text last. -/
def scan (source : String) : List Token :=
  (Cursor.ofString source).remaining

end TapeCompiler
