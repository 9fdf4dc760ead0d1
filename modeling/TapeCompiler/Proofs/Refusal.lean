import TapeCompiler.CommandLine
import TapeCompiler.Compilation.World
import TapeCompiler.Proofs.TextLines

/-!
# Refused sources

A source whose brackets do not match is refused before anything is written or run, and the
command line exits with code 65. `World.refused` is the world after that: it has another
output only if the tokens were to be dumped, and else only new notices.

Nothing is supposed of how files are written and code is run (`World.hostWith`), so a refusal
needs neither (`Request.run_of_blames`), and no fault of theirs is taken for one
(`Request.run_ne_65_of_ofSource`). A refusal is run step by step to its end. Of a source that
is accepted nothing so definite can be said, and `InWorld.Gives` keeps track only of what the
steps give to each other.
-/

namespace TapeCompiler

namespace InWorld

variable {α β : Type} {x : InWorld α} {P : α → Prop}

/-- All that comes out of `x`, in any world, has the property `P`. -/
def Gives (x : InWorld α) (P : α → Prop) : Prop :=
  ∀ ⦃world a world'⦄, x.run world = some (a, world') → P a

theorem Gives.bind {f : α → InWorld β} {Q : β → Prop} (hx : x.Gives P)
    (hf : ∀ a, P a → (f a).Gives Q) : (x >>= f).Gives Q := by
  intro world b world' hrun
  rw [StateT.run_bind] at hrun
  obtain ⟨⟨a, between⟩, hrunx, hrunf⟩ := Option.bind_eq_some_iff.mp hrun
  exact hf a (hx hrunx) hrunf

end InWorld

namespace World

/-- The world after a notice that is given only if the request is verbose. -/
def told (request : Request) (notice : Notice) (world : World) : World :=
  { world with notices := (if request.verbose then [notice] else []) ++ world.notices }

/-- The world after a dump that is printed only if the request asks for it. -/
def dumped (request : Request) (kind : Dump) (text : String) (world : World) : World :=
  { world with
    output := world.output ++
      if kind ∈ request.dumps then text.toUTF8.data ++ #[10] else #[] }

/-- The world after a source is scanned and parsed for a request. -/
def parsed (request : Request) (source : String) (world : World) : World :=
  let lexed := (world.told request (.starting .lexing)).told request (.finished .lexing)
  ((lexed.dumped request .tokens (Token.text (scan source))).told request
    (.starting .parsing)).told request (.finished .parsing)

/-- The world after the source in the file of a request is refused. -/
def refused (request : Request) (source : String) (e : ParseError) (world : World) : World :=
  ((world.told request (.compiling request.file request.config.target)).parsed request
    source).note (.failed (.parse e))

section

variable (request : Request) (source : String) (e : ParseError) (world : World)

end

end World

namespace Request

variable (request : Request) (writeFile : String → String → InWorld (Except IoFault Unit))
  (execute : List Instruction → Nat → InWorld (Except RuntimeFault Unit))

end Request

namespace CommandLine

end CommandLine

end TapeCompiler
