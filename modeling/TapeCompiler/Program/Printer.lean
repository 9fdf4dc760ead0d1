import TapeCompiler.Layout.Template

/-!
# Writing programs as text

`Program.source` writes a program in the instruction characters, so that it can be
read again. `Program.debugText` is the short form of dumps: an amount is written
once, after the character of its direction, and `[Z]` stands for a `clear`. Both put a
loop into brackets and leave its id out. The lemmas on `sourceChars` and `debugChars`
say what is written for the first node of a program.
-/

namespace TapeCompiler

namespace Command

def source : Command → List Char
  | move amount => List.replicate amount.natAbs (if amount < 0 then '<' else '>')
  | add amount => List.replicate amount.natAbs (if amount < 0 then '-' else '+')
  | clear => ['[', '+', ']']
  | print => ['.']
  | read => [',']

/-- An amount in braces behind the character of its direction. -/
def amountText (direction : Char) (amount : Nat) : List Char :=
  direction :: '\x7b' :: Nat.toDigits 10 amount ++ ['\x7d']

def debugText : Command → List Char
  | move amount => amountText (if amount < 0 then '<' else '>') amount.natAbs
  | add amount => amountText (if amount < 0 then '-' else '+') amount.natAbs
  | clear => ['[', 'Z', ']']
  | print => ['.']
  | read => [',']

end Command

def sourceTemplate : Template Char :=
  .uniform Command.source ['['] [']']

def debugTemplate : Template Char :=
  .uniform Command.debugText ['['] [']']

namespace Program

/-- The instruction characters of a program. -/
def sourceChars (p : Program) : List Char :=
  sourceTemplate.write {} p

/-- The characters of the short form of a program. -/
def debugChars (p : Program) : List Char :=
  debugTemplate.write {} p

/-- The program in the instruction characters. -/
def source (p : Program) : String :=
  String.ofList p.sourceChars

/-- The program in the short form of dumps. -/
def debugText (p : Program) : String :=
  String.ofList p.debugChars

@[simp] theorem sourceChars_nil : sourceChars [] = [] := rfl

theorem sourceChars_command (c : Command) (rest : Program) :
    sourceChars (.command c :: rest) = c.source ++ sourceChars rest := by
  rw [sourceChars, Template.write_command]
  rfl

theorem sourceChars_loop (id : Nat) (body rest : Program) :
    sourceChars (.loop id body :: rest) =
      '[' :: sourceChars body ++ ']' :: sourceChars rest := by
  rw [sourceChars, Template.write_loop]
  simp only [sourceTemplate, Template.write_uniform _ _ _ _ {}]
  simp [sourceChars, sourceTemplate, Template.uniform]

@[simp] theorem debugChars_nil : debugChars [] = [] := rfl

theorem debugChars_command (c : Command) (rest : Program) :
    debugChars (.command c :: rest) = c.debugText ++ debugChars rest := by
  rw [debugChars, Template.write_command]
  rfl

theorem debugChars_loop (id : Nat) (body rest : Program) :
    debugChars (.loop id body :: rest) =
      '[' :: debugChars body ++ ']' :: debugChars rest := by
  rw [debugChars, Template.write_loop]
  simp only [debugTemplate, Template.write_uniform _ _ _ _ {}]
  simp [debugChars, debugTemplate, Template.uniform]

end Program

end TapeCompiler
