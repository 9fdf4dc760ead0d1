/-!
# Symbols

The eight characters of a source text that mean something. Every other character is
a comment. `Symbol.ofChar?` reads a character, `Symbol.toChar` writes it back, and
`ofChar?_eq_some_iff` says that the two are inverse to each other.
-/

namespace TapeCompiler

inductive Symbol where
  /-- Skip to the matching `closeLoop` while the cell is zero. -/
  | openLoop
  /-- Go back to the matching `openLoop` while the cell is not zero. -/
  | closeLoop
  | plus
  | minus
  | left
  | right
  | dot
  | comma
deriving DecidableEq, Repr, Inhabited

namespace Symbol

def toChar : Symbol → Char
  | openLoop => '['
  | closeLoop => ']'
  | plus => '+'
  | minus => '-'
  | left => '<'
  | right => '>'
  | dot => '.'
  | comma => ','

/-- The symbol of a character, `none` for a comment character. -/
def ofChar? : Char → Option Symbol
  | '[' => some openLoop
  | ']' => some closeLoop
  | '+' => some plus
  | '-' => some minus
  | '<' => some left
  | '>' => some right
  | '.' => some dot
  | ',' => some comma
  | _ => none

@[simp] theorem ofChar?_toChar (s : Symbol) : ofChar? s.toChar = some s := by
  cases s <;> rfl

theorem ofChar?_eq_some_iff {c : Char} {s : Symbol} :
    ofChar? c = some s ↔ c = s.toChar := by
  constructor
  · intro h
    unfold ofChar? at h
    split at h <;> simp_all [toChar] <;> (subst h; rfl)
  · rintro rfl
    exact ofChar?_toChar s

end Symbol

end TapeCompiler
